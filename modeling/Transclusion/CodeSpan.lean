import Transclusion.Span
import Transclusion.Text.Basic

namespace Transclusion

def backtick : Char := '\x60'

/-- Backticks that open or close a fenced block. -/
def fenceLength : Nat := 3

/-- The maximal runs of backticks that are long enough for a fence. The arguments are the offset of
the text and the number of backticks right before it. -/
def fenceRuns (offset pending : Nat) : Text → List Span
  | [] => if fenceLength ≤ pending then [⟨offset - pending, offset⟩] else []
  | c :: t =>
    if c = backtick then fenceRuns (offset + 1) (pending + 1) t
    else
      let later := fenceRuns (offset + c.utf8Size) 0 t
      if fenceLength ≤ pending then ⟨offset - pending, offset⟩ :: later else later

/-- Every first run opens a block that the next one closes; a last unpaired one runs to `stop`. -/
def pairFences (stop : Nat) : List Span → List Span
  | [] => []
  | [opening] => [⟨opening.start, stop⟩]
  | opening :: closing :: rest => ⟨opening.start, closing.stop⟩ :: pairFences stop rest

def fencedSpans (t : Text) : SpanSet := .ofSpans (pairFences t.size (fenceRuns 0 0 t))

/-- The leftmost stretches of a backtick, something that is neither a backtick nor a newline, and a
backtick. `opened` is where the last backtick of the line stood that can still open one. -/
def inlineRuns (offset : Nat) (opened : Option Nat) : Text → List Span
  | [] => []
  | c :: t =>
    if c = '\n' then inlineRuns (offset + 1) none t
    else if c = backtick then
      match opened with
      | some start =>
        if start + 1 < offset then ⟨start, offset + 1⟩ :: inlineRuns (offset + 1) none t
        else inlineRuns (offset + 1) (some offset) t
      | none => inlineRuns (offset + 1) (some offset) t
    else inlineRuns (offset + c.utf8Size) opened t

/-- Inline code between the given fenced blocks. Each stretch is searched on its own, so no span
reaches into a block or over it. -/
def inlineSpans (t : Text) (fenced : SpanSet) : SpanSet :=
  .ofSpans ((fenced.gaps t.size).flatMap fun gap => inlineRuns gap.start none (t.slice gap.start gap.stop))

def codeSpans (t : Text) : SpanSet := (fencedSpans t).union (inlineSpans t (fencedSpans t))

end Transclusion
