import Mathlib.Data.List.Pairwise
import Transclusion.Proofs.SpanCover

namespace Transclusion

/-- One of the spans has the offset in it. No offset is in an empty or a reversed span. -/
def Covers (spans : List Span) (offset : Nat) : Prop := ∃ s ∈ spans, s.start ≤ offset ∧ offset < s.stop

theorem not_covers_nil (offset : Nat) : ¬ Covers [] offset := by
  rintro ⟨s, member, _⟩
  exact List.not_mem_nil member

theorem covers_cons {s : Span} {spans : List Span} {offset : Nat} :
    Covers (s :: spans) offset ↔ (s.start ≤ offset ∧ offset < s.stop) ∨ Covers spans offset := by
  simp only [Covers, List.mem_cons, exists_eq_or_imp]

theorem covers_append {spans others : List Span} {offset : Nat} :
    Covers (spans ++ others) offset ↔ Covers spans offset ∨ Covers others offset := by
  simp only [Covers, List.mem_append, or_and_right, exists_or]

theorem covers_iff_any {spans : List Span} {offset : Nat} :
    Covers spans offset ↔ spans.any (·.contains offset) := by
  simp only [Covers, List.any_eq_true, Span.contains_iff]

namespace Apart

variable {s t : Span} {spans others : List Span} {offset : Nat}

theorem tail (apart : Apart (s :: spans)) : Apart spans :=
  ⟨fun r member => apart.filled r (List.mem_cons_of_mem s member), apart.gaps.of_cons⟩

theorem covers_start (apart : Apart (s :: spans)) : Covers (s :: spans) s.start :=
  ⟨s, List.mem_cons_self .., Nat.le_refl _, apart.filled s (List.mem_cons_self ..)⟩

theorem start_le (apart : Apart (s :: spans)) (covered : Covers (s :: spans) offset) :
    s.start ≤ offset := by
  rcases covers_cons.mp covered with here | ⟨r, later, after, _⟩
  · exact here.1
  · have gap := (List.pairwise_cons.mp apart.gaps).1 r later
    have filled := apart.filled s (List.mem_cons_self ..)
    omega

theorem covers_tail_iff (apart : Apart (s :: spans)) :
    Covers spans offset ↔ Covers (s :: spans) offset ∧ s.stop ≤ offset := by
  rw [covers_cons]
  constructor
  · rintro ⟨r, later, after, before⟩
    have gap := (List.pairwise_cons.mp apart.gaps).1 r later
    exact ⟨Or.inr ⟨r, later, after, before⟩, by omega⟩
  · rintro ⟨here | later, behind⟩
    · omega
    · exact later

/-- The offset that a span ends at is in no span. -/
theorem not_covers_stop (apart : Apart spans) (member : s ∈ spans) : ¬ Covers spans s.stop := by
  rintro ⟨r, inside, after, before⟩
  have filled := apart.filled s member
  by_cases same : r = s
  · subst same
    exact Nat.lt_irrefl _ before
  · let ordered (a b : Span) : Prop := a.stop < b.start ∨ b.stop < a.start
    have : Std.Symm ordered := ⟨fun _ _ => Or.symm⟩
    have whole : spans.Pairwise ordered := apart.gaps.imp Or.inl
    rcases whole.forall inside member same with earlier | later
    · omega
    · omega

theorem head_le (apart : Apart (s :: spans)) (apart' : Apart (t :: others))
    (same : ∀ offset, Covers (s :: spans) offset ↔ Covers (t :: others) offset) :
    t.start ≤ s.start ∧ t.stop ≤ s.stop := by
  have begins : t.start ≤ s.start := apart'.start_le ((same _).mp apart.covers_start)
  refine ⟨begins, Nat.le_of_not_lt fun longer => ?_⟩
  -- the offset that `s` ends at would be one of those in `t`
  have filled := apart.filled s (List.mem_cons_self ..)
  have reached : Covers (t :: others) s.stop := ⟨t, List.mem_cons_self .., by omega, longer⟩
  exact apart.not_covers_stop (List.mem_cons_self ..) ((same _).mpr reached)

/-- An offset behind the start of a span is in none of the spans in front of that one. -/
theorem index_eq (apart : Apart spans) {i n : Nat} (here : spans[i]? = some s)
    (there : spans[n]? = some t) (before : i ≤ n) (begins : t.start ≤ offset)
    (inside : offset < s.stop) : i = n := by
  obtain ⟨low, rfl⟩ := List.getElem?_eq_some_iff.mp here
  obtain ⟨high, rfl⟩ := List.getElem?_eq_some_iff.mp there
  by_contra other
  have gap := List.pairwise_iff_getElem.mp apart.gaps i n low high (by omega)
  omega

/-- Spans that are apart are told by the offsets in them. -/
theorem eq_of_covers (apart : Apart spans) (apart' : Apart others)
    (same : ∀ offset, Covers spans offset ↔ Covers others offset) : spans = others := by
  induction spans generalizing others with
  | nil =>
    cases others with
    | nil => rfl
    | cons t others => exact absurd ((same _).mpr apart'.covers_start) (not_covers_nil _)
  | cons s spans ih =>
    cases others with
    | nil => exact absurd ((same _).mp apart.covers_start) (not_covers_nil _)
    | cons t others =>
      obtain ⟨starts, stops⟩ := apart.head_le apart' same
      obtain ⟨starts', stops'⟩ := apart'.head_le apart fun offset => (same offset).symm
      have first : s = t :=
        Span.mk.injEq .. ▸ ⟨Nat.le_antisymm starts' starts, Nat.le_antisymm stops' stops⟩
      subst first
      have rest : spans = others := ih apart.tail apart'.tail fun offset => by
        rw [apart.covers_tail_iff, apart'.covers_tail_iff, same]
      rw [rest]

end Apart

namespace SpanSet

variable {s : Span} {spans : List Span} {offset : Nat}

theorem contains_iff {a : SpanSet} {offset : Nat} : a.contains offset ↔ Covers a.spans offset :=
  covers_iff_any.symm

theorem covers_ofSpans {spans : List Span} {offset : Nat} :
    Covers (ofSpans spans).spans offset ↔ Covers spans offset := by
  rw [← contains_iff, contains_ofSpans, covers_iff_any]

/-- A set is made from any spans that have its offsets in them. -/
theorem ofSpans_eq_iff {spans others : List Span} :
    ofSpans spans = ofSpans others ↔ ∀ offset, Covers spans offset ↔ Covers others offset := by
  constructor
  · intro same offset
    rw [← covers_ofSpans, same, covers_ofSpans]
  · intro same
    have lists := (apart_ofSpans spans).eq_of_covers (apart_ofSpans others) fun offset => by
      rw [covers_ofSpans, covers_ofSpans, same]
    exact SpanSet.mk.injEq .. ▸ lists

theorem covers_union {a b : SpanSet} {offset : Nat} :
    Covers (a.union b).spans offset ↔ Covers a.spans offset ∨ Covers b.spans offset :=
  covers_ofSpans.trans covers_append

theorem union_comm (a b : SpanSet) : a.union b = b.union a :=
  ofSpans_eq_iff.mpr fun offset => by rw [covers_append, covers_append, or_comm]

theorem union_assoc (a b c : SpanSet) : (a.union b).union c = a.union (b.union c) :=
  ofSpans_eq_iff.mpr fun offset =>
    by rw [covers_append, covers_append, covers_union, covers_union, or_assoc]

theorem union_self {a : SpanSet} (apart : Apart a.spans) : a.union a = a := by
  have once : a.union a = ofSpans a.spans := ofSpans_eq_iff.mpr fun offset => by rw [covers_append, or_self]
  rw [once]
  exact SpanSet.mk.injEq .. ▸ spans_ofSpans apart

/-- How many of the spans, in the order in which they begin, begin at or before an offset. The
number lies between `low` and `high`, and what is between them is halved until nothing is left of
it. -/
def countBegun (spans : List Span) (offset low high : Nat) : Nat :=
  if low < high then
    let middle := low + (high - low) / 2
    match spans[middle]? with
    | some s =>
      if s.start ≤ offset then countBegun spans offset (middle + 1) high
        else countBegun spans offset low middle
    | none => low
  else low
termination_by high - low

/-- Looks for an offset in the last of the spans that begin at or before it. -/
def search (a : SpanSet) (offset : Nat) : Bool :=
  match countBegun a.spans offset 0 a.spans.length with
  | 0 => false
  | n + 1 => a.spans[n]?.any fun s => offset < s.stop

theorem countBegun_le (spans : List Span) (offset : Nat) {low high : Nat} (ordered : low ≤ high) :
    countBegun spans offset low high ≤ high := by
  fun_induction countBegun spans offset low high with
  | case1 low high less middle s found begins ih => exact ih (by omega)
  | case2 low high less middle s found later ih => exact Nat.le_trans (ih (by omega)) (by omega)
  | case3 => exact ordered
  | case4 => exact ordered

/-- The halving ends at the place where the spans that begin behind the offset come first, as there
is just one such place. -/
theorem begun_iff_lt_countBegun {spans : List Span} (sorted : spans.Pairwise fun a b => a.start ≤ b.start)
    (offset : Nat) {low high : Nat} (ordered : low ≤ high) (inside : high ≤ spans.length)
    (begun : ∀ i s, spans[i]? = some s → i < low → s.start ≤ offset)
    (waiting : ∀ i s, spans[i]? = some s → high ≤ i → offset < s.start) :
    ∀ i s, spans[i]? = some s → (s.start ≤ offset ↔ i < countBegun spans offset low high) := by
  have order {i j : Nat} {s t : Span} (here : spans[i]? = some s) (there : spans[j]? = some t)
      (less : i ≤ j) : s.start ≤ t.start := by
    obtain ⟨low, rfl⟩ := List.getElem?_eq_some_iff.mp here
    obtain ⟨high, rfl⟩ := List.getElem?_eq_some_iff.mp there
    rcases Nat.eq_or_lt_of_le less with rfl | before
    · exact Nat.le_refl _
    · exact List.pairwise_iff_getElem.mp sorted i j low high before
  fun_induction countBegun spans offset low high with
  | case1 low high less middle s found begins ih =>
    refine ih (by omega) inside (fun i r there before => ?_) waiting
    exact Nat.le_trans (order there found (by omega)) begins
  | case2 low high less middle s found later ih =>
    refine ih (by omega) (by omega) begun fun i r there behind => ?_
    exact Nat.lt_of_lt_of_le (Nat.lt_of_not_le later) (order found there behind)
  | case3 low high less middle beyond =>
    have := List.getElem?_eq_none_iff.mp beyond
    omega
  | case4 low high stopped =>
    intro i s there
    constructor
    · intro begins
      by_contra behind
      exact absurd begins (Nat.not_le_of_lt (waiting i s there (by omega)))
    · exact begun i s there

/-- The halving of all spans tells those that begin at or before the offset by where they stand. -/
theorem begun_iff (apart : Apart spans) {i : Nat} (here : spans[i]? = some s) :
    s.start ≤ offset ↔ i < countBegun spans offset 0 spans.length :=
  begun_iff_lt_countBegun apart.ordered offset (Nat.zero_le _) (Nat.le_refl _)
    (fun i _ _ none => absurd none (Nat.not_lt_zero i))
    (fun _ _ there beyond => absurd (List.getElem?_eq_some_iff.mp there).1 (Nat.not_lt_of_le beyond))
    i s here

/-- In spans that are apart, an offset can only lie in the last that begins at or before it. -/
theorem search_eq_contains {a : SpanSet} (apart : Apart a.spans) (offset : Nat) :
    a.search offset = a.contains offset := by
  rw [Bool.eq_iff_iff, contains_iff]
  unfold search
  constructor
  · intro found
    split at found
    · cases found
    · rename_i n place
      obtain ⟨s, there, before⟩ := (Option.any_eq_true ..).mp found
      have after := (begun_iff apart there).mpr (place ▸ Nat.lt_succ_self n)
      exact ⟨s, List.mem_of_getElem? there, after, of_decide_eq_true before⟩
  · rintro ⟨s, member, after, before⟩
    obtain ⟨i, here⟩ := List.mem_iff_getElem?.mp member
    have place := (begun_iff apart here).mp after
    have bound := countBegun_le a.spans offset (Nat.zero_le a.spans.length)
    split
    · omega
    · rename_i n count
      have there : a.spans[n]? = some a.spans[n] := List.getElem?_eq_getElem (by omega)
      have begins : a.spans[n].start ≤ offset := (begun_iff apart there).mpr (by omega)
      have same : i = n := apart.index_eq here there (by omega) begins before
      rw [← same, here, Option.any_some]
      exact decide_eq_true before

end SpanSet

/-- A set of offsets has one form: ascending spans, none of them empty, with an offset between any
two that is in no span. It has in it just the offsets of the spans that it is made from, and the
last span that begins at or before an offset is all that has to be looked at. Sets with the same
offsets in them are the same set, so joining sets is joining what is in them. -/
theorem spanSets_are_canonical (xs ys zs : List Span) :
    let a := SpanSet.ofSpans xs
    let b := SpanSet.ofSpans ys
    let c := SpanSet.ofSpans zs
    ((∀ s ∈ a.spans, s.start < s.stop) ∧
        a.spans.Pairwise fun s t => ∃ offset, s.stop ≤ offset ∧ offset < t.start ∧
          a.contains offset = false) ∧
      (∀ offset, (a.contains offset ↔ ∃ s ∈ xs, s.start ≤ offset ∧ offset < s.stop) ∧
        a.search offset = a.contains offset) ∧
      (a = b ↔ ∀ offset, Covers xs offset ↔ Covers ys offset) ∧
      (∀ offset, (a.union b).contains offset ↔ a.contains offset ∨ b.contains offset) ∧
      a.union b = b.union a ∧ (a.union b).union c = a.union (b.union c) ∧ a.union a = a := by
  intro a b c
  have apart : Apart a.spans := SpanSet.apart_ofSpans xs
  refine ⟨⟨apart.filled, ?_⟩, fun offset => ⟨?_, SpanSet.search_eq_contains apart offset⟩,
    SpanSet.ofSpans_eq_iff,
    fun offset => ?_, a.union_comm b, a.union_assoc b c, SpanSet.union_self apart⟩
  · refine apart.gaps.imp_of_mem fun {s t} first _ gap => ⟨s.stop, Nat.le_refl _, gap, ?_⟩
    rw [Bool.eq_false_iff, Ne, SpanSet.contains_iff]
    exact apart.not_covers_stop first
  · exact SpanSet.contains_iff.trans SpanSet.covers_ofSpans
  · rw [SpanSet.contains_union, Bool.or_eq_true]

-- spans that overlap, touch or are in no order, and two with nothing in them
example : (SpanSet.ofSpans [⟨5, 10⟩, ⟨12, 14⟩, ⟨0, 3⟩, ⟨8, 12⟩, ⟨20, 20⟩, ⟨4, 2⟩]).spans =
    [⟨0, 3⟩, ⟨5, 14⟩] := by decide

end Transclusion
