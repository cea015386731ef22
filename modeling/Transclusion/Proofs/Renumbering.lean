import Transclusion.Proofs.Outline

namespace Transclusion

open WrapperTag Heading

/-- Two tagged texts with as many fences and the same tags, one after the other. -/
structure Alike (t t' : Text) : Prop where
  tagged : Tagged t
  tagged' : Tagged t'
  fences : fenceCount t' = fenceCount t
  tags : tags t' = tags t

namespace Alike

variable {t t' : Text}

theorem refl (tagged : Tagged t) : Alike t t := ⟨tagged, tagged, rfl, rfl⟩

theorem clear_iff (alike : Alike t t') : Clear t' ↔ Clear t := by
  rw [Clear, Clear, alike.fences, alike.tags]

theorem wellTagged (alike : Alike t t') (well : WellTagged t) : WellTagged t' :=
  ⟨alike.tagged', alike.tags ▸ well.balanced⟩

/-- Behind the end of a line, other marks make no difference. -/
theorem append_marks (alike : Alike t t') (ends : EndsLine t) (ends' : EndsLine t') (n n' : Nat)
    {rest : Text} (behind : Tagged (List.replicate n '#' ++ rest)) :
    Alike (t ++ (List.replicate n '#' ++ rest)) (t' ++ (List.replicate n' '#' ++ rest)) := by
  have unmarked (n : Nat) : '<' ∉ List.replicate n '#' ∧ backtick ∉ List.replicate n '#' := by
    simp only [List.mem_replicate, not_and]
    exact ⟨fun _ => by decide, fun _ => by decide⟩
  have marks (n : Nat) : WrapperTag.tags (List.replicate n '#' ++ rest) = WrapperTag.tags rest := by
    rw [(Tagged.of_not_mem (unmarked n).1).tags_append, tags_of_not_mem (unmarked n).1, List.nil_append]
  have tail : Tagged rest := behind.of_plain_append (unmarked n).1
  refine ⟨alike.tagged.append behind,
    alike.tagged'.append ((Tagged.of_not_mem (unmarked n').1).append tail), ?_, ?_⟩
  · rw [fenceCount_append ends, fenceCount_append ends', alike.fences,
      fenceCount_plain_append (unmarked n).2, fenceCount_plain_append (unmarked n').2]
  · rw [alike.tagged.tags_append, alike.tagged'.tags_append, alike.tags, marks, marks]

end Alike

namespace HeadingShift

theorem clampLevel_bounds (level : Nat) (shift : Int) :
    minLevel ≤ clampLevel level shift ∧ clampLevel level shift ≤ maxLevel := by
  unfold clampLevel minLevel maxLevel
  omega

theorem clampLevel_zero {level : Nat} (bounds : minLevel ≤ level ∧ level ≤ maxLevel) :
    clampLevel level 0 = level := by
  unfold minLevel maxLevel at bounds
  unfold clampLevel minLevel maxLevel
  omega

/-- One line with its heading renumbered. -/
def shiftLine (excluded : SpanSet) (shift : Int) (offset : Nat) (line : Text) : Text :=
  match ofLine? line with
  | some (level, rest) =>
    if excluded.contains offset then line else List.replicate (clampLevel level shift) '#' ++ rest
  | none => line

theorem shiftLines_cons (excluded : SpanSet) (shift : Int) (offset : Nat) (line : Text)
    (more : List Text) :
    (shiftLines excluded shift offset (line :: more)).1 =
      shiftLine excluded shift offset line ::
        (shiftLines excluded shift (offset + line.size + 1) more).1 := by
  rw [shiftLines, shiftLine]
  generalize shiftLines excluded shift (offset + line.size + 1) more = shifted
  cases ofLine? line with
  | none => rfl
  | some found =>
    dsimp only
    split <;> rfl

theorem exists_marks_shiftLine (excluded : SpanSet) (shift : Int) (offset : Nat) (line : Text) :
    ∃ n n' rest, line = List.replicate n '#' ++ rest ∧
      shiftLine excluded shift offset line = List.replicate n' '#' ++ rest := by
  unfold shiftLine
  split
  · rename_i level rest heading
    split
    · exact ⟨0, 0, line, rfl, rfl⟩
    · exact ⟨level, _, rest, (ofLine?_eq_some heading).1, rfl⟩
  · exact ⟨0, 0, line, rfl, rfl⟩

theorem alike_shiftLine {front front' : Text} (alike : Alike front front') (ends : EndsLine front)
    (ends' : EndsLine front') (excluded : SpanSet) (shift : Int) (offset : Nat) {line tail : Text}
    (behind : Tagged (line ++ tail)) :
    Alike (front ++ line ++ tail) (front' ++ shiftLine excluded shift offset line ++ tail) := by
  obtain ⟨n, n', rest, marks, marks'⟩ := exists_marks_shiftLine excluded shift offset line
  rw [marks, List.append_assoc] at behind
  have longer := alike.append_marks ends ends' n n' behind
  rw [marks', marks]
  simpa only [List.append_assoc] using longer

theorem newline_not_mem_shiftLine {line : Text} (clean : '\n' ∉ line) (excluded : SpanSet)
    (shift : Int) (offset : Nat) :
    '\n' ∉ shiftLine excluded shift offset line := by
  obtain ⟨n, n', rest, marks, marks'⟩ := exists_marks_shiftLine excluded shift offset line
  rw [marks] at clean
  rw [marks']
  simp only [List.mem_append, not_or, List.mem_replicate, not_and] at clean ⊢
  exact ⟨fun _ => by decide, clean.2⟩

/-- A heading is renumbered unless a fenced block is open in front of it, so no heading of the
text's own is passed over. -/
theorem visible_shiftLine {excluded : SpanSet} {shift : Int} {front front' line : Text}
    (alike : Alike front front')
    (judged : (level? line).isSome → excluded.contains front.size = decide (¬ Even (fenceCount front))) :
    visible front' (shiftLine excluded shift front.size line) =
      (visible front line).map (clampLevel · shift) := by
  unfold visible shiftLine
  unfold level? at judged
  simp only [alike.clear_iff]
  by_cases clear : Clear front
  · rw [if_pos clear, if_pos clear]
    split
    · rename_i level rest heading
      obtain ⟨_, _, c, behind, rfl, blank⟩ := ofLine?_eq_some heading
      obtain ⟨low, high⟩ := clampLevel_bounds level shift
      have outside : excluded.contains front.size = false := by
        rw [judged (by rw [heading]; rfl)]; simp [clear.1]
      rw [outside, if_neg Bool.false_ne_true, level?_marks low high blank, level?, heading]
      rfl
    · rename_i none
      rw [level?, none]
      rfl
  · rw [if_neg clear, if_neg clear]
    rfl

/-- Renumbering the rest of a text clamps the levels that are found in it, if what lies in front is
alike. -/
theorem walk_shiftLines {lines : List Text} (nonempty : lines ≠ [])
    (clean : ∀ line ∈ lines, '\n' ∉ line) {front front' : Text} (ends : EndsLine front)
    (ends' : EndsLine front') (alike : Alike front front')
    (behind : Tagged (['\n'].intercalate lines)) (shift : Int) :
    let shifted := ['\n'].intercalate
      (shiftLines (codeSpans (front ++ ['\n'].intercalate lines)) shift front.size lines).1
    walk headingAt front' shifted =
      (walk headingAt front (['\n'].intercalate lines)).map (clampLevel · shift) ∧
      Alike (front ++ ['\n'].intercalate lines) (front' ++ shifted) := by
  generalize whole : front ++ ['\n'].intercalate lines = t
  induction lines generalizing front front' with
  | nil => exact absurd rfl nonempty
  | cons line more ih =>
    obtain ⟨first, later⟩ := List.forall_mem_cons.mp clean
    have judged : (level? line).isSome →
        (codeSpans t).contains front.size = decide (¬ Even (fenceCount front)) := by
      intro heading
      obtain ⟨level, heading⟩ := Option.isSome_iff_exists.mp heading
      obtain ⟨rest, rfl⟩ := exists_of_level?_eq_some heading
      rw [← whole, List.intercalate_cons_cons_left]
      exact contains_codeSpans (by decide) ends _
    have here : visible front' (shiftLine (codeSpans t) shift front.size line) =
        (visible front line).map (clampLevel · shift) := visible_shiftLine alike judged
    have first' := newline_not_mem_shiftLine first (codeSpans t) shift front.size
    have longer {tail : Text} (behind : Tagged (line ++ tail)) :=
      alike_shiftLine alike ends ends' (codeSpans t) shift front.size behind
    dsimp only
    rw [shiftLines_cons]
    cases more with
    | nil =>
      rw [List.intercalate_singleton] at behind whole
      have last : Tagged (line ++ []) := by rwa [List.append_nil]
      have whole' : front ++ line ++ [] = t := by rw [List.append_nil]; exact whole
      rw [shiftLines, List.intercalate_singleton, List.intercalate_singleton,
        walk_headingAt_last ends' first', walk_headingAt_last ends first, here]
      refine ⟨rfl, ?_⟩
      rw [← List.append_nil (front' ++ _)]
      exact whole' ▸ longer last
    | cons next others =>
      have nonempty' :
          (shiftLines (codeSpans t) shift (front.size + line.size + 1) (next :: others)).1 ≠ [] := by
        rw [shiftLines_cons]
        exact List.cons_ne_nil _ _
      rw [intercalate_line line (by simp)] at behind whole ⊢
      rw [intercalate_line _ nonempty']
      obtain ⟨tagged, rest⟩ := behind.of_line
      have alike' := longer (tagged.append (.char (by decide) .nil : Tagged ['\n']))
      obtain ⟨same, whole'⟩ := ih (by simp) later (Or.inr ⟨_, rfl⟩) (Or.inr ⟨_, rfl⟩) alike' rest
        (by rw [← whole]; simp)
      rw [size_line] at same whole'
      rw [walk_headingAt_cons ends' first', walk_headingAt_cons ends first, here, same, List.map_append]
      exact ⟨rfl, by simpa using whole'⟩

theorem outline_adjust {t : Text} (tagged : Tagged t) (shift : Int) :
    outline (adjust t shift false).content = (outline t).map (clampLevel · shift) ∧
      Alike t (adjust t shift false).content := by
  have shifted := walk_shiftLines t.lines_ne_nil (fun line member => Text.newline_not_mem_line member)
    (Or.inl rfl) (Or.inl rfl) (Alike.refl .nil) (t.intercalate_lines.symm ▸ tagged) shift
  rwa [List.nil_append, Text.intercalate_lines] at shifted

/-- However a text is renumbered for the place where it is inlined, all headings of its own move by
the same amount, up to the bounds on levels. -/
theorem exists_shift_under {t : Text} (tagged : Tagged t) (mode : HeadingMode) (context : Nat) :
    ∃ shift, outline (under t mode context).content = (outline t).map (clampLevel · shift) ∧
      Alike t (under t mode context).content := by
  cases mode with
  | additive => exact ⟨_, outline_adjust tagged context⟩
  | normalize =>
    unfold under toLevel
    dsimp only
    split
    · exact ⟨_, outline_adjust tagged _⟩
    · refine ⟨0, ?_, .refl tagged⟩
      rw [List.map_congr_left fun level member =>
        clampLevel_zero (bounds_of_mem_outline level member), List.map_id']

end HeadingShift

end Transclusion
