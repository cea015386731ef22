import Mathlib.Data.List.Sort
import Transclusion.Span

namespace Transclusion

theorem sortBy_eq_insertionSort {α : Type} (r : α → α → Prop) [DecidableRel r] (xs : List α) :
    sortBy (fun a b => r a b) xs = xs.insertionSort r := by
  have insert (a : α) (ys : List α) : insertBy (fun a b => r a b) a ys = ys.orderedInsert r a := by
    induction ys with
    | nil => rfl
    | cons b rest ih => simp only [insertBy, List.orderedInsert, ih, decide_eq_true_eq]
  induction xs with
  | nil => rfl
  | cons a rest ih =>
    rw [List.insertionSort_cons, ← ih, ← insert]
    rfl

/-- Spans that all have something in them and of which each ends before the next begins. -/
structure Apart (spans : List Span) : Prop where
  filled : ∀ s ∈ spans, s.start < s.stop
  gaps : spans.Pairwise fun a b => a.stop < b.start

theorem Apart.ordered {spans : List Span} (apart : Apart spans) :
    spans.Pairwise fun a b => a.start ≤ b.start := by
  refine apart.gaps.imp_of_mem fun {a b} first _ gap => ?_
  have some := apart.filled a first
  omega

namespace Span

def shift (n : Nat) (s : Span) : Span := ⟨n + s.start, n + s.stop⟩

@[simp] theorem start_shift (n : Nat) (s : Span) : (s.shift n).start = n + s.start := rfl

@[simp] theorem stop_shift (n : Nat) (s : Span) : (s.shift n).stop = n + s.stop := rfl

theorem contains_iff {s : Span} {offset : Nat} :
    s.contains offset ↔ s.start ≤ offset ∧ offset < s.stop := by
  simp [contains]

theorem contains_shift (n : Nat) (s : Span) (offset : Nat) :
    (s.shift n).contains (n + offset) = s.contains offset := by
  simp [contains, shift]

theorem any_contains_shift (n : Nat) (spans : List Span) (offset : Nat) :
    (spans.map (·.shift n)).any (·.contains (n + offset)) = spans.any (·.contains offset) := by
  rw [List.any_map]
  exact congrArg (spans.any ·) (funext fun s => contains_shift n s offset)

theorem any_contains_eq_false {spans : List Span} {offset : Nat} (before : ∀ s ∈ spans, s.stop ≤ offset) :
    spans.any (·.contains offset) = false := by
  refine List.any_eq_false.mpr fun s member inside => ?_
  have behind := (contains_iff.mp inside).2
  have ends := before s member
  omega

/-- Joining a span with those that it meets neither adds nor loses an offset. -/
theorem any_contains_coalesce {s : Span} {spans : List Span}
    (sorted : (s :: spans).Pairwise fun a b => a.start ≤ b.start) (offset : Nat) :
    (s.coalesce spans).any (·.contains offset) = (s :: spans).any (·.contains offset) := by
  induction spans generalizing s with
  | nil => rfl
  | cons next rest ih =>
    obtain ⟨first, later⟩ := List.pairwise_cons.mp sorted
    have ordered : s.start ≤ next.start := first next (List.mem_cons_self ..)
    unfold coalesce
    split
    · rename_i meets
      have joined : (⟨s.start, max s.stop next.stop⟩ : Span).contains offset =
          (s.contains offset || next.contains offset) := by
        rw [Bool.eq_iff_iff, Bool.or_eq_true, contains_iff, contains_iff, contains_iff]
        dsimp only
        omega
      rw [ih (s := ⟨s.start, max s.stop next.stop⟩)
        (List.pairwise_cons.mpr ⟨fun b member => first b (List.mem_cons_of_mem _ member), later.of_cons⟩)]
      simp only [List.any_cons, joined, Bool.or_assoc]
    · rw [List.any_cons, ih later, List.any_cons (a := s)]

theorem coalesce_of_apart {s : Span} {spans : List Span}
    (apart : (s :: spans).Pairwise fun a b => a.stop < b.start) :
    s.coalesce spans = s :: spans := by
  induction spans generalizing s with
  | nil => rfl
  | cons next rest ih =>
    obtain ⟨first, later⟩ := List.pairwise_cons.mp apart
    have gap : ¬ next.start ≤ s.stop := Nat.not_le_of_lt (first next (List.mem_cons_self ..))
    rw [coalesce, if_neg gap, ih later]

theorem bounds_coalesce {bound : Nat → Prop} {s : Span} {spans : List Span}
    (bounds : ∀ r ∈ s :: spans, bound r.start ∧ bound r.stop) :
    ∀ r ∈ s.coalesce spans, bound r.start ∧ bound r.stop := by
  induction spans generalizing s with
  | nil => exact bounds
  | cons next rest ih =>
    obtain ⟨here, there, later⟩ : _ ∧ _ ∧ _ := by simpa only [List.forall_mem_cons] using bounds
    unfold coalesce
    split
    · refine ih (List.forall_mem_cons.mpr ⟨⟨here.1, ?_⟩, later⟩)
      dsimp only
      rcases Nat.le_total s.stop next.stop with less | more
      · exact (Nat.max_eq_right less).symm ▸ there.2
      · exact (Nat.max_eq_left more).symm ▸ here.2
    · exact List.forall_mem_cons.mpr ⟨here, ih (List.forall_mem_cons.mpr ⟨there, later⟩)⟩

theorem apart_coalesce {s : Span} {spans : List Span} (filled : ∀ r ∈ s :: spans, r.start < r.stop)
    (sorted : (s :: spans).Pairwise fun a b => a.start ≤ b.start) : Apart (s.coalesce spans) := by
  induction spans generalizing s with
  | nil => exact ⟨filled, List.pairwise_singleton ..⟩
  | cons next rest ih =>
    obtain ⟨here, there, later⟩ : _ ∧ _ ∧ _ := by simpa only [List.forall_mem_cons] using filled
    obtain ⟨first, ordered⟩ := List.pairwise_cons.mp sorted
    unfold coalesce
    split
    · refine ih (List.forall_mem_cons.mpr ⟨?_, later⟩) (List.pairwise_cons.mpr ⟨?_, ordered.of_cons⟩)
      · dsimp only
        omega
      · exact fun r member => first r (List.mem_cons_of_mem next member)
    · rename_i gap
      have behind : ∀ r ∈ next.coalesce rest, next.start ≤ r.start ∧ next.start ≤ r.stop := by
        refine bounds_coalesce (List.forall_mem_cons.mpr ⟨⟨Nat.le_refl _, there.le⟩, fun r member => ?_⟩)
        have after := (List.pairwise_cons.mp ordered).1 r member
        have some := later r member
        exact ⟨after, by omega⟩
      obtain ⟨filled, gaps⟩ := ih (List.forall_mem_cons.mpr ⟨there, later⟩) ordered
      refine ⟨List.forall_mem_cons.mpr ⟨here, filled⟩, List.pairwise_cons.mpr ⟨fun r member => ?_, gaps⟩⟩
      have after := (behind r member).1
      omega

end Span

namespace SpanSet

theorem ofSpans_eq (spans : List Span) :
    ofSpans spans =
      match (spans.filter fun s => s.start < s.stop).insertionSort fun a b => a.start ≤ b.start with
      | [] => empty
      | first :: rest => ⟨first.coalesce rest⟩ := by
  rw [← sortBy_eq_insertionSort]
  rfl

/-- A set is made by going once through the spans that have something in them, in the order in which
they begin. -/
theorem exists_sorted (spans : List Span) :
    ∃ sorted : List Span, (sorted.Pairwise fun a b => a.start ≤ b.start) ∧
    (∀ s, s ∈ sorted ↔ s ∈ spans ∧ s.start < s.stop) ∧
    ofSpans spans = match sorted with
      | [] => empty
      | first :: rest => ⟨first.coalesce rest⟩ := by
  let before (a b : Span) : Prop := a.start ≤ b.start
  have : Std.Total before := ⟨fun a b => Nat.le_total a.start b.start⟩
  have : IsTrans Span before := ⟨fun a b c => Nat.le_trans⟩
  refine ⟨_, List.pairwise_insertionSort before _, fun s => ?_, ofSpans_eq spans⟩
  rw [List.mem_insertionSort, List.mem_filter, decide_eq_true_eq]

/-- A set contains what the spans that it was made from contain. -/
theorem contains_ofSpans (spans : List Span) (offset : Nat) :
    (ofSpans spans).contains offset = spans.any (·.contains offset) := by
  obtain ⟨sorted, ordered, members, same⟩ := exists_sorted spans
  have kept : sorted.any (·.contains offset) = spans.any (·.contains offset) := by
    rw [Bool.eq_iff_iff]
    simp only [List.any_eq_true, members, Span.contains_iff]
    constructor
    · rintro ⟨s, ⟨member, _⟩, inside⟩
      exact ⟨s, member, inside⟩
    · rintro ⟨s, member, inside⟩
      exact ⟨s, ⟨member, by omega⟩, inside⟩
  rw [← kept, same]
  cases sorted with
  | nil => rfl
  | cons first rest => exact Span.any_contains_coalesce ordered offset

theorem contains_union (a b : SpanSet) (offset : Nat) :
    (a.union b).contains offset = (a.contains offset || b.contains offset) := by
  rw [union, contains_ofSpans, List.any_append]
  rfl

/-- The bounds of a set are bounds of the spans that it was made from. -/
theorem bounds_ofSpans {bound : Nat → Prop} {spans : List Span}
    (bounds : ∀ s ∈ spans, bound s.start ∧ bound s.stop) :
    ∀ s ∈ (ofSpans spans).spans, bound s.start ∧ bound s.stop := by
  obtain ⟨sorted, _, members, same⟩ := exists_sorted spans
  have bounds : ∀ s ∈ sorted, bound s.start ∧ bound s.stop :=
    fun s member => bounds s ((members s).mp member).1
  rw [same]
  cases sorted with
  | nil => exact fun s none => absurd none List.not_mem_nil
  | cons first rest => exact Span.bounds_coalesce bounds

/-- No two spans of a set meet, whatever spans it is made from. -/
theorem apart_ofSpans (spans : List Span) : Apart (ofSpans spans).spans := by
  obtain ⟨sorted, ordered, members, same⟩ := exists_sorted spans
  have filled : ∀ s ∈ sorted, s.start < s.stop := fun s member => ((members s).mp member).2
  rw [same]
  cases sorted with
  | nil => exact ⟨fun s none => absurd none List.not_mem_nil, List.Pairwise.nil⟩
  | cons first rest => exact Span.apart_coalesce filled ordered

/-- Spans that are apart make up the set as they are. -/
theorem spans_ofSpans {spans : List Span} (apart : Apart spans) : (ofSpans spans).spans = spans := by
  have filled : (spans.filter fun s => s.start < s.stop) = spans :=
    List.filter_eq_self.mpr fun s member => decide_eq_true (apart.filled s member)
  rw [ofSpans_eq, filled, apart.ordered.insertionSort_eq]
  cases spans with
  | nil => rfl
  | cons first rest => exact Span.coalesce_of_apart apart.gaps

end SpanSet

end Transclusion
