import Transclusion.Proofs.MarkShift

namespace Transclusion

open Heading HeadingShift

namespace HeadingShift

section Levels

variable {level : Nat} {shift : Int}

theorem clampLevel_eq (fits : leavesRange level shift = false) :
    (clampLevel level shift : Int) = level + shift :=
  Decidable.not_not.mp (of_decide_eq_false fits)

/-- What a level is clamped to depends on the sum alone. -/
theorem clampLevel_congr {level' : Nat} {shift' : Int} (sum : level + shift = level' + shift') :
    clampLevel level shift = clampLevel level' shift' := by
  rw [clampLevel, clampLevel, sum]

theorem clampLevel_clampLevel (fits : leavesRange level shift = false) (again : Int) :
    clampLevel (clampLevel level shift) again = clampLevel level (shift + again) :=
  clampLevel_congr (by rw [clampLevel_eq fits, Int.add_assoc])

theorem leavesRange_clampLevel (fits : leavesRange level shift = false) (again : Int) :
    leavesRange (clampLevel level shift) again = leavesRange level (shift + again) := by
  rw [leavesRange, clampLevel_clampLevel fits, clampLevel_eq fits, Int.add_assoc, ← leavesRange]

/-- A level that is shifted onto a target lands there, or on the bound next to it. -/
theorem clampLevel_sub (level target : Nat) :
    clampLevel level (target - level) = min maxLevel (max minLevel target) := by
  unfold clampLevel minLevel maxLevel
  omega

end Levels

/-- Lines whose headings are shifted twice, the first time without clamping any, are shifted by the sum. -/
theorem InStep.shiftLines_shiftLines {excluded excluded' : SpanSet} {shift : Int}
    {offset offset' : Nat} {lines : List Text}
    (steps : InStep excluded excluded' shift offset offset' lines)
    (fits : (shiftLines excluded shift offset lines).2 = 0) (again : Int) :
    shiftLines excluded' again offset' (shiftLines excluded shift offset lines).1 =
      shiftLines excluded (shift + again) offset lines := by
  induction steps with
  | nil => rfl
  | @heading _ _ _ level _ _ found outside outside' _ ih =>
    rw [shiftLines_heading found outside] at fits ⊢
    obtain ⟨later, inRange⟩ := Nat.add_eq_zero_iff.mp fits
    have here : leavesRange level shift = false := by simpa using inRange
    rw [shiftLines_heading (ofLine?_clampLevel found shift) outside', ih later, clampLevel_clampLevel here,
      leavesRange_clampLevel here, shiftLines_heading found outside]
  | passed passed passed' _ ih =>
    rw [shiftLines_passed passed] at fits ⊢
    rw [shiftLines_passed passed', ih fits, shiftLines_passed passed]

theorem shiftLines_zero (excluded : SpanSet) (offset : Nat) (lines : List Text) :
    shiftLines excluded 0 offset lines = (lines, 0) := by
  induction lines generalizing offset with
  | nil => rfl
  | cons line more ih =>
    rcases heading_or_passed excluded offset line with ⟨level, rest, found, outside⟩ | passed
    · obtain ⟨whole, bounds, _⟩ := ofLine?_eq_some found
      have stays : leavesRange level 0 = false := by
        rw [leavesRange, clampLevel_zero bounds, Int.add_zero]
        exact decide_eq_false (fun other => other rfl)
      rw [shiftLines_heading found outside, ih, clampLevel_zero bounds, ← whole, stays]
      rfl
    · rw [shiftLines_passed passed, ih]

section Adjust

variable {t : Text} {exceptWrapped : Bool}

theorem adjust_zero (t : Text) (exceptWrapped : Bool) : adjust t 0 exceptWrapped = ⟨t, 0⟩ := by
  rw [adjust, shiftLines_zero]
  exact congrArg (HeadingShift.mk · 0) t.intercalate_lines

theorem adjust_adjust {shift : Int} (fits : (adjust t shift exceptWrapped).clamped = 0)
    (again : Int) :
    adjust (adjust t shift exceptWrapped).content again exceptWrapped =
      adjust t (shift + again) exceptWrapped := by
  have twice := (inStep_adjust t shift exceptWrapped).shiftLines_shiftLines fits again
  rw [adjust, lines_adjust, twice]
  rfl

theorem inRange_of_clamped {shift : Int} (fits : (adjust t shift exceptWrapped).clamped = 0) :
    ∀ h ∈ extract t exceptWrapped, leavesRange h.level shift = false := by
  rw [clamped_adjust, List.countP_eq_zero] at fits
  exact fun h member => Bool.eq_false_iff.mpr (fits h member)

theorem map_level_adjust (t : Text) (shift : Int) (exceptWrapped : Bool) :
    (extract (adjust t shift exceptWrapped).content exceptWrapped).map (·.level) =
      (extract t exceptWrapped).map fun h => clampLevel h.level shift := by
  have levels := congrArg (List.map Prod.fst) (map_extract_adjust t shift exceptWrapped)
  rwa [List.map_map, List.map_map] at levels

theorem toLevel_of_nil (none : extract t exceptWrapped = []) (target : Nat) :
    toLevel t target exceptWrapped = ⟨t, 0⟩ := by
  rw [toLevel, none]

variable {first : Heading} {more : List Heading}

theorem toLevel_of_cons (found : extract t exceptWrapped = first :: more) (target : Nat) :
    toLevel t target exceptWrapped = adjust t (target - first.level) exceptWrapped := by
  rw [toLevel, found]

/-- The first heading of a shifted text is the first one of the text, shifted. -/
theorem toLevel_adjust (found : extract t exceptWrapped = first :: more) (shift : Int)
    (target : Nat) :
    toLevel (adjust t shift exceptWrapped).content target exceptWrapped =
      adjust (adjust t shift exceptWrapped).content (target - clampLevel first.level shift)
        exceptWrapped := by
  have levels := map_level_adjust t shift exceptWrapped
  rw [found] at levels
  obtain ⟨first', more', found', same, _⟩ := List.map_eq_cons_iff.mp levels
  rw [toLevel_of_cons found', same]

end Adjust

end HeadingShift

/-- Shifts of the headings of a text add up as long as the first of them clamps no heading. So a
text that has been shifted onto a level stays as it is when it is shifted there again, and one that
was shifted somewhere else without clamping a heading can be shifted from there. -/
theorem shifted_headings_compose (t : Text) (exceptWrapped : Bool) :
    (∀ shift again : Int, (adjust t shift exceptWrapped).clamped = 0 →
      adjust (adjust t shift exceptWrapped).content again exceptWrapped =
        adjust t (shift + again) exceptWrapped) ∧
    (∀ target : Nat, minLevel ≤ target → target ≤ maxLevel →
      toLevel (toLevel t target exceptWrapped).content target exceptWrapped =
        ⟨(toLevel t target exceptWrapped).content, 0⟩) ∧
    (∀ target target' : Nat, (toLevel t target exceptWrapped).clamped = 0 →
      toLevel (toLevel t target exceptWrapped).content target' exceptWrapped =
        toLevel t target' exceptWrapped) := by
  refine ⟨fun shift again fits => adjust_adjust fits again,
    fun target low high => ?_, fun target target' fits => ?_⟩
  · cases found : extract t exceptWrapped with
    | nil => rw [toLevel_of_nil found, toLevel_of_nil found]
    | cons first more =>
      have lands : clampLevel first.level (target - first.level) = target := by
        rw [clampLevel_sub, max_eq_right low, min_eq_right high]
      rw [toLevel_of_cons found, toLevel_adjust found, lands, Int.sub_self, adjust_zero]
  · cases found : extract t exceptWrapped with
    | nil => rw [toLevel_of_nil found]
    | cons first more =>
      rw [toLevel_of_cons found] at fits ⊢
      have lands : (clampLevel first.level (target - first.level) : Int) =
          first.level + (target - first.level) :=
        clampLevel_eq (inRange_of_clamped fits first (by rw [found]; exact List.mem_cons_self ..))
      have sum : (target - first.level : Int) + (target' - (first.level + (target - first.level))) =
          target' - first.level := by omega
      rw [toLevel_adjust found, adjust_adjust fits, lands, sum, ← toLevel_of_cons found]

/-- Two headings around code. Shifted by three the second one is clamped, and shifted onto level 5
it is as well. -/
theorem shifted_headings_compose_listing :
    let t := "## A\n\x60\x60\x60\n# code\n\x60\x60\x60\n#### B\n".toList
    (adjust t 1 false).clamped = 0 ∧ (adjust t 3 false).clamped = 1 ∧
      adjust (adjust t 1 false).content 2 false = adjust t 3 false ∧
      (toLevel t 5 false).clamped = 1 ∧
        toLevel (toLevel t 5 false).content 5 false = ⟨(toLevel t 5 false).content, 0⟩ ∧
      (toLevel t 1 false).clamped = 0 ∧
        toLevel (toLevel t 1 false).content 5 false = toLevel t 5 false := by
  intro t
  obtain ⟨added, again, onwards⟩ := shifted_headings_compose t false
  have fits : (adjust t 1 false).clamped = 0 ∧ (adjust t 3 false).clamped = 1 := by decide +kernel
  have levels : (toLevel t 5 false).clamped = 1 ∧ (toLevel t 1 false).clamped = 0 := by decide +kernel
  exact ⟨fits.1, fits.2, added 1 2 fits.1, levels.1, again 5 (by decide) (by decide), levels.2,
    onwards 1 5 levels.2⟩

-- what has been clamped does not come back
example : adjust (adjust "#### A\n###### B".toList 2 false).content (-2) false =
    ⟨"#### A\n#### B".toList, 0⟩ := by
  decide +kernel

end Transclusion
