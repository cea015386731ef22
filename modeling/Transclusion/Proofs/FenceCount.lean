import Transclusion.Proofs.CodeLayout
import Transclusion.Proofs.InertText

namespace Transclusion

/-- How many runs of backticks in a text are long enough to open or close a fenced block. -/
def fenceCount (t : Text) : Nat := (fenceRuns 0 0 t).length

/-- Any other character ends a run, so the runs before it and behind it are found on their own. -/
theorem length_fenceRuns_append_cons {c : Char} (other : c ≠ backtick) (offset pending : Nat)
    (u t : Text) :
    (fenceRuns offset pending (u ++ c :: t)).length =
      (fenceRuns offset pending u).length + fenceCount t := by
  have anywhere (offset : Nat) : (fenceRuns offset 0 t).length = fenceCount t := by
    have moved := fenceRuns_shift offset (Nat.le_refl 0) t
    rw [Nat.add_zero] at moved
    rw [moved, List.length_map, fenceCount]
  induction u generalizing offset pending with
  | nil =>
    simp only [List.nil_append, fenceRuns, if_neg other]
    split
    · rw [List.length_cons, anywhere, List.length_singleton, Nat.add_comm]
    · rw [anywhere, List.length_nil, Nat.zero_add]
  | cons d u ih =>
    simp only [List.cons_append, fenceRuns]
    split
    · exact ih ..
    · split
      · rw [List.length_cons, List.length_cons, ih, Nat.add_right_comm]
      · exact ih ..

theorem fenceCount_append_cons {c : Char} (other : c ≠ backtick) (u t : Text) :
    fenceCount (u ++ c :: t) = fenceCount u + fenceCount t :=
  length_fenceRuns_append_cons other 0 0 u t

theorem fenceCount_cons {c : Char} (other : c ≠ backtick) (t : Text) :
    fenceCount (c :: t) = fenceCount t := by
  have alone := fenceCount_append_cons other [] t
  rwa [List.nil_append, show fenceCount [] = 0 from rfl, Nat.zero_add] at alone

theorem fenceCount_plain_append {u : Text} (plain : backtick ∉ u) (t : Text) :
    fenceCount (u ++ t) = fenceCount t := by
  induction u with
  | nil => rfl
  | cons c u ih =>
    simp only [List.mem_cons, not_or] at plain
    rw [List.cons_append, fenceCount_cons (Ne.symm plain.1), ih plain.2]

/-- Text between two characters that are no backticks keeps its runs to itself. -/
theorem fenceCount_between {c d : Char} (first : c ≠ backtick) (last : d ≠ backtick)
    (u inner t : Text) :
    fenceCount (u ++ (c :: (inner ++ [d])) ++ t) =
      fenceCount u + fenceCount (c :: (inner ++ [d])) + fenceCount t := by
  have split : u ++ (c :: (inner ++ [d])) ++ t = u ++ c :: (inner ++ d :: t) := by simp
  rw [split, fenceCount_append_cons first, fenceCount_append_cons last, fenceCount_cons first,
    fenceCount_append_cons last, show fenceCount [] = 0 from rfl, Nat.add_zero, Nat.add_assoc]

/-- Where an odd number of runs lies before an offset, the last of them opens a block that contains it. -/
theorem any_pairFences {runs later : List Span} {stop offset : Nat} (odd : ¬ Even runs.length)
    (before : ∀ s ∈ runs, s.start ≤ offset) (behind : ∀ s ∈ later, offset < s.stop)
    (reached : offset < stop) :
    (pairFences stop (runs ++ later)).any (·.contains offset) := by
  induction runs using pairFences.induct with
  | case1 => exact absurd (by simp) odd
  | case2 opening =>
    have starts := before opening (List.mem_singleton_self _)
    cases later with
    | nil =>
      have inside : Span.contains ⟨opening.start, stop⟩ offset := Span.contains_iff.mpr ⟨starts, reached⟩
      simp [pairFences, inside]
    | cons closing later =>
      have inside : Span.contains ⟨opening.start, closing.stop⟩ offset :=
        Span.contains_iff.mpr ⟨starts, behind closing (List.mem_cons_self ..)⟩
      simp [pairFences, inside]
  | case3 opening closing rest ih =>
    have fewer : ¬ Even rest.length := by simpa [Nat.even_add_one] using odd
    have found := ih fewer fun s member => before s (List.mem_cons_of_mem _ (List.mem_cons_of_mem _ member))
    rw [List.cons_append, List.cons_append, pairFences, List.any_cons, found, Bool.or_true]

section Begin

theorem start_of_mem_inlineRuns {offset : Nat} {opened : Option Nat} {t : Text} {s : Span}
    (member : s ∈ inlineRuns offset opened t) : opened = some s.start ∨ offset ≤ s.start := by
  induction t generalizing offset opened with
  | nil => cases member
  | cons c t ih =>
    have passed {opened : Option Nat} {width : Nat} (inside : s ∈ inlineRuns (offset + width) opened t)
        (here : opened = some s.start → offset ≤ s.start) : offset ≤ s.start :=
      (ih inside).elim here fun behind => Nat.le_trans (Nat.le_add_right ..) behind
    unfold inlineRuns at member
    split at member
    · exact Or.inr (passed member (by simp))
    · split at member
      · cases opened with
        | none => exact Or.inr (passed member fun same => (Option.some.inj same).le)
        | some start =>
          dsimp only at member
          split at member
          · rcases List.mem_cons.mp member with rfl | later
            · exact Or.inl rfl
            · exact Or.inr (passed later (by simp))
          · exact Or.inr (passed member fun same => (Option.some.inj same).le)
      · exact (ih member).imp_right fun behind => Nat.le_trans (Nat.le_add_right ..) behind

theorem start_of_mem_gaps {stop start : Nat} {spans : List Span} {gap : Span}
    (member : gap ∈ SpanSet.gaps.go stop start spans) :
    gap.start = start ∨ ∃ s ∈ spans, gap.start = s.stop := by
  induction spans generalizing start with
  | nil =>
    cases List.mem_singleton.mp member
    exact Or.inl rfl
  | cons s rest ih =>
    rcases List.mem_cons.mp member with rfl | later
    · exact Or.inl rfl
    · rcases ih later with same | ⟨other, inside, same⟩
      · exact Or.inr ⟨s, List.mem_cons_self .., same⟩
      · exact Or.inr ⟨other, List.mem_cons_of_mem _ inside, same⟩

variable {c : Char} (other : c ≠ backtick)

include other

theorem pos_of_mem_fencedSpans (t : Text) :
    ∀ s ∈ (fencedSpans (c :: t)).spans, 0 < s.start ∧ s.start < s.stop := by
  have found : fenceRuns 0 0 (c :: t) = fenceRuns (0 + c.utf8Size) 0 t := by
    rw [fenceRuns, if_neg other, if_neg (by decide)]
  have inside : ∀ s ∈ fenceRuns 0 0 (c :: t), s.stop ≤ Text.size (c :: t) := fun s member => by
    have bound := ((cuts_fenceRuns (Nat.le_refl 0) (c :: t)).bounds s member).2
    simpa using bound
  obtain ⟨apart, starts⟩ := (apart_fenceRuns (Nat.le_refl 0) (c :: t)).pairFences inside
  intro s member
  rw [spans_fencedSpans] at member
  obtain ⟨run, first, same⟩ := starts s member
  rw [found] at first
  have bound := ((cuts_fenceRuns (Nat.zero_le _) t).bounds run first).1
  have width := c.utf8Size_pos
  exact ⟨by omega, apart.filled s member⟩

theorem pos_of_mem_inlineRuns {stop : Nat} {t : Text} {s : Span}
    (member : s ∈ inlineRuns 0 none (Text.slice 0 stop (c :: t))) : 0 < s.start := by
  rw [Text.slice, Text.dropBytes, Nat.sub_zero] at member
  cases stop with
  | zero => cases member
  | succ stop =>
    rw [Text.takeBytes, inlineRuns, if_neg other] at member
    have width := c.utf8Size_pos
    split at member
    · rcases start_of_mem_inlineRuns member with none | behind
      · cases none
      · omega
    · rcases start_of_mem_inlineRuns member with none | behind
      · cases none
      · omega

/-- Code begins with a backtick, so no text that begins with another character begins with code. -/
theorem contains_codeSpans_zero (t : Text) : (codeSpans (c :: t)).contains 0 = false := by
  have late {spans : List Span} (starts : ∀ s ∈ spans, 0 < s.start) : spans.any (·.contains 0) = false :=
    List.any_eq_false.mpr fun s member inside =>
      absurd (Span.contains_iff.mp inside).1 (Nat.not_le_of_lt (starts s member))
  have fences := pos_of_mem_fencedSpans other t
  -- the first gap begins where the text does, and the others end a block
  have inline : ∀ s ∈ inlineIn (c :: t) ((fencedSpans (c :: t)).gaps (Text.size (c :: t))),
      0 < s.start := by
    intro s member
    obtain ⟨gap, here, run⟩ := List.mem_flatMap.mp member
    rcases start_of_mem_gaps here with first | ⟨block, before, same⟩
    · rw [first] at run
      exact pos_of_mem_inlineRuns other run
    · obtain ⟨filled, ends⟩ := fences block before
      rcases start_of_mem_inlineRuns run with none | behind
      · cases none
      · omega
  have fenced : (fencedSpans (c :: t)).contains 0 = false := late fun s member => (fences s member).1
  rw [codeSpans, SpanSet.contains_union, fenced, Bool.false_or, inlineSpans, SpanSet.contains_ofSpans]
  exact late inline

/-- A line that begins with no backtick begins in code when the fences before it do not pair up. -/
theorem contains_codeSpans {front : Text} (ends : EndsLine front) (rest : Text) :
    (codeSpans (front ++ c :: rest)).contains front.size = decide (¬ Even (fenceCount front)) := by
  by_cases even : Even (fenceCount front)
  · have inner := contains_codeSpans_append ends even (c :: rest) 0
    rw [Nat.add_zero, contains_codeSpans_zero other] at inner
    simp [inner, even]
  · have reached : front.size < Text.size (front ++ c :: rest) := by
      have width := c.utf8Size_pos
      rw [Text.size_append, Text.size]
      omega
    have before : ∀ s ∈ fenceRuns 0 0 front, s.start ≤ front.size := fun s member => by
      have bound := ((cuts_fenceRuns (Nat.le_refl 0) front).bounds s member).2
      have filled := (apart_fenceRuns (Nat.le_refl 0) front).filled s member
      simp only [List.replicate_zero, List.nil_append] at bound
      omega
    have behind : ∀ s ∈ (fenceRuns 0 0 (c :: rest)).map (·.shift front.size), front.size < s.stop := by
      intro s member
      obtain ⟨run, first, rfl⟩ := List.mem_map.mp member
      have filled := (apart_fenceRuns (Nat.le_refl 0) (c :: rest)).filled run first
      rw [Span.stop_shift]
      omega
    have fenced : (fencedSpans (front ++ c :: rest)).contains front.size := by
      rw [SpanSet.contains, spans_fencedSpans, fenceRuns_append ends]
      exact any_pairFences even before behind reached
    rw [codeSpans, SpanSet.contains_union, fenced, Bool.true_or, decide_eq_true even]

end Begin

end Transclusion
