import Transclusion.Sorting

namespace Transclusion

/-- The byte offsets from `start` up to, but not including, `stop`. -/
structure Span where
  start : Nat
  stop : Nat
deriving DecidableEq, Repr, Inhabited

/-- A set of byte offsets, written as ascending spans with a gap between any two. -/
structure SpanSet where
  spans : List Span
deriving DecidableEq, Repr, Inhabited

namespace Span

def contains (s : Span) (offset : Nat) : Bool := s.start ≤ offset && offset < s.stop

/-- Joins `s` with those of the spans behind it that overlap or touch it, and goes on from the
first one that does neither. -/
def coalesce (s : Span) : List Span → List Span
  | [] => [s]
  | next :: rest =>
    if next.start ≤ s.stop then coalesce ⟨s.start, max s.stop next.stop⟩ rest
    else s :: coalesce next rest

end Span

namespace SpanSet

def empty : SpanSet := ⟨[]⟩

/-- The set that the given spans cover. Spans with nothing in them are dropped first, so none of
them can join two others. -/
def ofSpans (spans : List Span) : SpanSet :=
  match sortBy (fun a b => a.start ≤ b.start) (spans.filter fun s => s.start < s.stop) with
  | [] => empty
  | first :: rest => ⟨first.coalesce rest⟩

def union (a b : SpanSet) : SpanSet := ofSpans (a.spans ++ b.spans)

def contains (a : SpanSet) (offset : Nat) : Bool := a.spans.any (·.contains offset)

def isEmpty (a : SpanSet) : Bool := a.spans.isEmpty

/-- The stretches of `0` to `stop` between the spans of the set. -/
def gaps (a : SpanSet) (stop : Nat) : List Span := go 0 a.spans
where
  go (start : Nat) : List Span → List Span
    | [] => [⟨start, stop⟩]
    | s :: rest => ⟨start, s.start⟩ :: go s.stop rest

end SpanSet

end Transclusion
