import Transclusion.Proofs.OpenTags
import Transclusion.Proofs.Renumbering

namespace Transclusion

open WrapperTag Heading HeadingShift

/-- Whether headings are looked for at a line does not depend on how many marks it begins with, nor
on how many begin the lines in front of it. -/
theorem contains_excludedSpans_marks {front front' : Text} (ends : EndsLine front)
    (ends' : EndsLine front') (before : squeeze front' = squeeze front) {rest rest' : Text}
    (behind : squeeze ('#' :: rest') = squeeze ('#' :: rest)) (exceptWrapped : Bool) :
    (excludedSpans (front' ++ '#' :: rest') exceptWrapped).contains front'.size =
      (excludedSpans (front ++ '#' :: rest) exceptWrapped).contains front.size := by
  have fences : fenceCount front' = fenceCount front := by
    rw [← fenceCount_squeeze front', before, fenceCount_squeeze]
  have code : (codeSpans (front' ++ '#' :: rest')).contains front'.size =
      (codeSpans (front ++ '#' :: rest)).contains front.size := by
    rw [contains_codeSpans (by decide) ends', contains_codeSpans (by decide) ends, fences]
  have tags : begun 0 front' ('#' :: rest') = begun 0 front ('#' :: rest) := by
    rw [← begun_squeeze ends', before, behind, begun_squeeze ends]
  cases exceptWrapped with
  | false => exact code
  | true =>
    rw [excludedSpans, excludedSpans, if_pos rfl, if_pos rfl, SpanSet.contains_union,
      SpanSet.contains_union, code, contains_wrapperSpans_mark, contains_wrapperSpans_mark, tags]

/-- A text, which begins at `offset`, and the same text with nothing but the marks of the given
headings renumbered. -/
inductive Renumbers (shift : Int) : Nat → Text → List Heading → Text → Prop
  | rest (offset : Nat) (t : Text) : Renumbers shift offset t [] t
  | heading {offset : Nat} {h : Heading} {before t t' : Text} {more : List Heading}
      (place : offset + before.size = h.offset)
      (marks : '#' ∉ t.head?) (later : Renumbers shift (h.offset + h.level) t more t') :
      Renumbers shift offset (before ++ List.replicate h.level '#' ++ t) (h :: more)
        (before ++ List.replicate (clampLevel h.level shift) '#' ++ t')

theorem Renumbers.prepend {shift : Int} {offset : Nat} {t t' : Text} {headings : List Heading}
    (u : Text) (later : Renumbers shift (offset + u.size) t headings t') :
    Renumbers shift offset (u ++ t) headings (u ++ t') := by
  cases later with
  | rest => exact .rest offset (u ++ t)
  | @heading _ h before rest rest' more place marks later =>
    have place' : offset + (u ++ before).size = h.offset := by rw [Text.size_append, ← place, Nat.add_assoc]
    have longer := Renumbers.heading place' marks later
    simpa only [List.append_assoc] using longer

namespace Heading

/-- What a line is to a scan that passes over `excluded`: a heading of the text, or none. -/
theorem heading_or_passed (excluded : SpanSet) (offset : Nat) (line : Text) :
    (∃ level rest, ofLine? line = some (level, rest) ∧ excluded.contains offset = false) ∨
      (ofLine? line = none ∨ excluded.contains offset) := by
  cases found : ofLine? line with
  | none => exact Or.inr (Or.inl rfl)
  | some heading =>
    cases inside : excluded.contains offset with
    | false => exact Or.inl ⟨heading.1, heading.2, rfl, rfl⟩
    | true => exact Or.inr (Or.inr rfl)

variable {excluded : SpanSet} {offset : Nat} {line : Text}

theorem ofLines_heading {level : Nat} {rest : Text} (found : ofLine? line = some (level, rest))
    (outside : excluded.contains offset = false) (number : Nat) (more : List Text) :
    ofLines excluded offset number (line :: more) =
      ⟨level, offset, number, title rest⟩ ::
        ofLines excluded (offset + line.size + 1) (number + 1) more := by
  simp [ofLines, found, outside]

theorem ofLines_passed (passed : ofLine? line = none ∨ excluded.contains offset) (number : Nat)
    (more : List Text) :
    ofLines excluded offset number (line :: more) =
      ofLines excluded (offset + line.size + 1) (number + 1) more := by
  rw [ofLines]
  rcases passed with none | inside
  · rw [none]
  · rw [inside]
    split <;> rfl

end Heading

namespace HeadingShift

theorem leavesRange_iff (level : Nat) (shift : Int) :
    leavesRange level shift ↔ ¬ (minLevel ≤ level + shift ∧ level + shift ≤ maxLevel) := by
  unfold leavesRange clampLevel
  rw [decide_eq_true_iff]
  unfold minLevel maxLevel
  omega

/-- The rest of a heading line goes on after the new marks, which are as many as a heading has. -/
theorem ofLine?_clampLevel {line rest : Text} {level : Nat}
    (found : ofLine? line = some (level, rest)) (shift : Int) :
    ofLine? (List.replicate (clampLevel level shift) '#' ++ rest) =
      some (clampLevel level shift, rest) := by
  obtain ⟨_, _, c, behind, rfl, blank⟩ := ofLine?_eq_some found
  obtain ⟨low, high⟩ := clampLevel_bounds level shift
  have other : c ≠ '#' := by rcases blank with rfl | rfl <;> decide
  rw [ofLine?_marks _ other, if_pos ⟨low, high, blank⟩]

theorem squeeze_clampLevel {line rest : Text} {level : Nat}
    (found : ofLine? line = some (level, rest)) (shift : Int) (t : Text) :
    squeeze (List.replicate (clampLevel level shift) '#' ++ rest ++ t) = squeeze (line ++ t) := by
  obtain ⟨rfl, ⟨low, _⟩, c, behind, rfl, blank⟩ := ofLine?_eq_some found
  have other : '#' ∉ (c :: behind ++ t).head? := by rcases blank with rfl | rfl <;> simp
  have low' := (clampLevel_bounds level shift).1
  rw [List.append_assoc, List.append_assoc, squeeze_marks (Nat.ne_of_gt low') other,
    squeeze_marks (Nat.ne_of_gt low) other]

section Lines

variable {excluded : SpanSet} {offset : Nat} {line : Text}

theorem shiftLine_heading {level : Nat} {rest : Text} (found : ofLine? line = some (level, rest))
    (outside : excluded.contains offset = false) (shift : Int) :
    shiftLine excluded shift offset line = List.replicate (clampLevel level shift) '#' ++ rest := by
  simp [shiftLine, found, outside]

theorem shiftLine_passed (passed : ofLine? line = none ∨ excluded.contains offset) (shift : Int) :
    shiftLine excluded shift offset line = line := by
  unfold shiftLine
  rcases passed with none | inside
  · rw [none]
  · rw [inside]
    split <;> rfl

theorem shiftLines_heading {level : Nat} {rest : Text} (found : ofLine? line = some (level, rest))
    (outside : excluded.contains offset = false) (shift : Int) (more : List Text) :
    shiftLines excluded shift offset (line :: more) =
      ((List.replicate (clampLevel level shift) '#' ++ rest) ::
        (shiftLines excluded shift (offset + line.size + 1) more).1,
        (shiftLines excluded shift (offset + line.size + 1) more).2 +
          if leavesRange level shift then 1 else 0) := by
  simp [shiftLines, found, outside]

theorem shiftLines_passed (passed : ofLine? line = none ∨ excluded.contains offset) (shift : Int)
    (more : List Text) :
    shiftLines excluded shift offset (line :: more) =
      (line :: (shiftLines excluded shift (offset + line.size + 1) more).1,
        (shiftLines excluded shift (offset + line.size + 1) more).2) := by
  rw [shiftLines]
  generalize shiftLines excluded shift (offset + line.size + 1) more = later
  rcases passed with none | inside
  · rw [none]
  · cases ofLine? line with
    | none => rfl
    | some heading => exact if_pos inside

theorem squeeze_shiftLine_append (excluded : SpanSet) (shift : Int) (offset : Nat) (line t : Text) :
    squeeze (shiftLine excluded shift offset line ++ t) = squeeze (line ++ t) := by
  rcases heading_or_passed excluded offset line with ⟨level, rest, found, outside⟩ | passed
  · rw [shiftLine_heading found outside, squeeze_clampLevel found]
  · rw [shiftLine_passed passed]

/-- The clamped levels are those that the shift would take out of the range of levels. -/
theorem clamped_shiftLines (excluded : SpanSet) (shift : Int) (offset number : Nat) (lines : List Text) :
    (shiftLines excluded shift offset lines).2 =
      (ofLines excluded offset number lines).countP fun h => leavesRange h.level shift := by
  induction lines generalizing offset number with
  | nil => rfl
  | cons line more ih =>
    rcases heading_or_passed excluded offset line with ⟨level, rest, found, outside⟩ | passed
    · rw [shiftLines_heading found outside, ofLines_heading found outside, List.countP_cons, ih]
    · rw [shiftLines_passed passed, ofLines_passed passed, ih]

theorem shiftLines_ne_nil (excluded : SpanSet) (shift : Int) (offset : Nat) {lines : List Text}
    (nonempty : lines ≠ []) :
    (shiftLines excluded shift offset lines).1 ≠ [] := by
  obtain ⟨line, more, rfl⟩ := List.exists_cons_of_ne_nil nonempty
  rw [shiftLines_cons]
  exact List.cons_ne_nil _ _

/-- Lines with their headings renumbered, joined again. -/
def shifted (excluded : SpanSet) (shift : Int) (offset : Nat) (lines : List Text) : Text :=
  ['\n'].intercalate (shiftLines excluded shift offset lines).1

theorem shifted_last (excluded : SpanSet) (shift : Int) (offset : Nat) (line : Text) :
    shifted excluded shift offset [line] = shiftLine excluded shift offset line := by
  rw [shifted, shiftLines_cons]
  exact List.intercalate_singleton

theorem shifted_cons (excluded : SpanSet) (shift : Int) (offset : Nat) (line : Text)
    {more : List Text} (nonempty : more ≠ []) :
    shifted excluded shift offset (line :: more) =
      shiftLine excluded shift offset line ++ '\n' ::
        shifted excluded shift (offset + line.size + 1) more := by
  rw [shifted, shiftLines_cons, intercalate_line _ (shiftLines_ne_nil excluded shift _ nonempty), shifted]

theorem lines_shifted (excluded : SpanSet) (shift : Int) (offset : Nat) {lines : List Text}
    (nonempty : lines ≠ []) (clean : ∀ line ∈ lines, '\n' ∉ line) :
    (shifted excluded shift offset lines).lines = (shiftLines excluded shift offset lines).1 := by
  refine List.splitOn_intercalate '\n' ?_ (shiftLines_ne_nil excluded shift offset nonempty)
  clear nonempty
  induction lines generalizing offset with
  | nil => exact clean
  | cons line more ih =>
    obtain ⟨first, later⟩ := List.forall_mem_cons.mp clean
    rw [shiftLines_cons]
    exact List.forall_mem_cons.mpr ⟨newline_not_mem_shiftLine first _ _ _, ih _ later⟩

theorem squeeze_shifted (excluded : SpanSet) (shift : Int) (offset : Nat) (lines : List Text) :
    squeeze (shifted excluded shift offset lines) = squeeze (['\n'].intercalate lines) := by
  induction lines generalizing offset with
  | nil => rfl
  | cons line more ih =>
    cases more with
    | nil =>
      have last := squeeze_shiftLine_append excluded shift offset line []
      rw [shifted_last, List.intercalate_singleton]
      rwa [List.append_nil, List.append_nil] at last
    | cons next others =>
      have ends (u : Text) : EndsLine (u ++ ['\n']) := Or.inr ⟨u, rfl⟩
      rw [shifted_cons excluded shift offset line (by simp), intercalate_line line (by simp),
        List.append_cons, List.append_cons line,
        squeeze_append_of_endsLine (ends _), squeeze_append_of_endsLine (ends _), ih,
          squeeze_shiftLine_append]

theorem renumbers_shifted (excluded : SpanSet) (shift : Int) (offset number : Nat) (lines : List Text) :
    Renumbers shift offset (['\n'].intercalate lines) (ofLines excluded offset number lines)
      (shifted excluded shift offset lines) := by
  induction lines generalizing offset number with
  | nil => exact .rest offset []
  | cons line more ih =>
    -- behind this line: nothing, or a newline and the lines that follow
    obtain ⟨tail, tail', whole, whole', later⟩ :
        ∃ tail tail', ['\n'].intercalate (line :: more) = line ++ tail ∧
        shifted excluded shift offset (line :: more) = shiftLine excluded shift offset line ++ tail' ∧
        Renumbers shift (offset + line.size) tail
          (ofLines excluded (offset + line.size + 1) (number + 1) more) tail' := by
      cases more with
      | nil =>
        refine ⟨[], [], ?_, ?_, .rest _ []⟩
        · rw [List.intercalate_singleton, List.append_nil]
        · rw [shifted_last, List.append_nil]
      | cons next others =>
        exact ⟨_, _, intercalate_line line (by simp), shifted_cons excluded shift offset line (by simp),
          .prepend ['\n'] (ih (offset + line.size + 1) (number + 1))⟩
    rw [whole, whole']
    rcases heading_or_passed excluded offset line with ⟨level, rest, found, outside⟩ | passed
    · rw [ofLines_heading found outside, shiftLine_heading found outside]
      obtain ⟨rfl, _, c, behind, rfl, blank⟩ := ofLine?_eq_some found
      have marks : '#' ∉ (c :: behind ++ tail).head? := by rcases blank with rfl | rfl <;> simp
      rw [Text.size_append, size_replicate rfl, ← Nat.add_assoc] at later ⊢
      have first := @Renumbers.heading shift offset ⟨level, offset, number, title (c :: behind)⟩ [] _ _ _
        (Nat.add_zero offset) marks (later.prepend (c :: behind))
      simpa only [List.nil_append, List.append_assoc] using first
    · rw [ofLines_passed passed, shiftLine_passed passed]
      exact later.prepend line

/-- A line with a heading begins with a mark before and after. -/
theorem contains_excludedSpans_shifted {line rest : Text} {level : Nat}
    (found : ofLine? line = some (level, rest)) (more : List Text) {front front' : Text}
    (ends : EndsLine front) (ends' : EndsLine front') (before : squeeze front' = squeeze front)
    (excluded : SpanSet) (shift : Int) (offset : Nat) (exceptWrapped : Bool) :
    (excludedSpans (front' ++ shifted excluded shift offset (line :: more)) exceptWrapped).contains
        front'.size =
      (excludedSpans (front ++ ['\n'].intercalate (line :: more)) exceptWrapped).contains front.size := by
  obtain ⟨inside, rfl⟩ :=
    exists_of_level?_eq_some (show level? line = some level by rw [level?, found]; rfl)
  have same := squeeze_shifted excluded shift offset (('#' :: inside) :: more)
  rw [List.intercalate_cons_cons_left] at same ⊢
  have first : (shifted excluded shift offset (('#' :: inside) :: more)).head? = some '#' := by
    rw [← head?_squeeze, same, head?_squeeze, List.head?_cons]
  obtain ⟨rest', marked⟩ := List.head?_eq_some_iff.mp first
  rw [marked] at same ⊢
  exact contains_excludedSpans_marks ends ends' before same exceptWrapped

/-- Lines, the first of which has the offset `offset`, are read in step with the same lines
renumbered, the first of which has the offset `offset'`: one scan finds a heading exactly where the
other does. -/
inductive InStep (excluded excluded' : SpanSet) (shift : Int) : Nat → Nat → List Text → Prop
  | nil {offset offset'} : InStep excluded excluded' shift offset offset' []
  | heading {offset offset' line level rest more} : ofLine? line = some (level, rest) →
      excluded.contains offset = false →
      excluded'.contains offset' = false →
      InStep excluded excluded' shift (offset + line.size + 1)
        (offset' + Text.size (List.replicate (clampLevel level shift) '#' ++ rest) + 1) more →
      InStep excluded excluded' shift offset offset' (line :: more)
  | passed {offset offset' line more} : ofLine? line = none ∨ excluded.contains offset →
      ofLine? line = none ∨ excluded'.contains offset' →
      InStep excluded excluded' shift (offset + line.size + 1) (offset' + line.size + 1) more →
      InStep excluded excluded' shift offset offset' (line :: more)

/-- The induction is on the lines, with what lies in front of them the same but for the number of marks. -/
theorem inStep_shifted {lines : List Text} (shift : Int) (exceptWrapped : Bool)
    {front front' : Text} (ends : EndsLine front) (ends' : EndsLine front')
    (before : squeeze front' = squeeze front) :
    let excluded := excludedSpans (front ++ ['\n'].intercalate lines) exceptWrapped
    let t' := front' ++ shifted excluded shift front.size lines
    InStep excluded (excludedSpans t' exceptWrapped) shift front.size front'.size lines := by
  dsimp only
  generalize whole : front ++ ['\n'].intercalate lines = t
  generalize whole' : front' ++ shifted (excludedSpans t exceptWrapped) shift front.size lines = t'
  induction lines generalizing front front' with
  | nil => exact .nil
  | cons line more ih =>
    have judged {level : Nat} {rest : Text} (found : ofLine? line = some (level, rest)) :
        (excludedSpans t' exceptWrapped).contains front'.size =
          (excludedSpans t exceptWrapped).contains front.size := by
      have same := contains_excludedSpans_shifted found more ends ends' before
        (excludedSpans t exceptWrapped) shift front.size exceptWrapped
      rwa [whole, whole'] at same
    have later : InStep (excludedSpans t exceptWrapped) (excludedSpans t' exceptWrapped) shift
        (front.size + line.size + 1)
        (front'.size + (shiftLine (excludedSpans t exceptWrapped) shift front.size line).size + 1)
        more := by
      cases more with
      | nil => exact .nil
      | cons next others =>
        rw [intercalate_line line (by simp), List.append_cons, ← List.append_assoc,
          ← List.append_assoc] at whole
        rw [shifted_cons _ _ _ line (by simp), List.append_cons, ← List.append_assoc,
          ← List.append_assoc] at whole'
        have before' : squeeze (front' ++
            shiftLine (excludedSpans t exceptWrapped) shift front.size line ++ ['\n']) =
            squeeze (front ++ line ++ ['\n']) := by
          rw [List.append_assoc, squeeze_append_of_endsLine ends', before, squeeze_shiftLine_append,
            ← squeeze_append_of_endsLine ends, List.append_assoc]
        have rest := ih (Or.inr ⟨_, rfl⟩) (Or.inr ⟨_, rfl⟩) before' whole
        rw [size_line, size_line] at rest
        exact rest whole'
    rcases heading_or_passed (excludedSpans t exceptWrapped) front.size line with
      ⟨level, rest, found, outside⟩ | passed
    · rw [shiftLine_heading found outside] at later
      exact .heading found outside ((judged found).trans outside) later
    · rw [shiftLine_passed passed] at later
      refine .passed passed ?_ later
      cases found : ofLine? line with
      | none => exact Or.inl rfl
      | some heading => exact Or.inr ((judged found).trans (passed.resolve_left (by simp [found])))

/-- The headings of renumbered lines are found on the same lines and with the same texts. -/
theorem InStep.map_ofLines {excluded excluded' : SpanSet} {shift : Int} {offset offset' : Nat}
    {lines : List Text} (steps : InStep excluded excluded' shift offset offset' lines)
    (number : Nat) :
    (ofLines excluded' offset' number (shiftLines excluded shift offset lines).1).map
        (fun h => (h.level, h.line, h.text)) =
      (ofLines excluded offset number lines).map fun h => (clampLevel h.level shift, h.line, h.text) := by
  induction steps generalizing number with
  | nil => rfl
  | heading found outside outside' _ ih =>
    rw [shiftLines_heading found outside, ofLines_heading (ofLine?_clampLevel found shift) outside',
      ofLines_heading found outside, List.map_cons, List.map_cons, ih]
  | passed passed passed' _ ih =>
    rw [shiftLines_passed passed, ofLines_passed passed', ofLines_passed passed, ih]

end Lines

section Adjusted

variable (t : Text) (shift : Int) (exceptWrapped : Bool)

theorem lines_adjust :
    (adjust t shift exceptWrapped).content.lines =
      (shiftLines (excludedSpans t exceptWrapped) shift 0 t.lines).1 :=
  lines_shifted (excludedSpans t exceptWrapped) shift 0 t.lines_ne_nil
    fun _ member => Text.newline_not_mem_line member

theorem inStep_adjust : InStep (excludedSpans t exceptWrapped)
    (excludedSpans (adjust t shift exceptWrapped).content exceptWrapped) shift 0 0 t.lines := by
  have steps := @inStep_shifted t.lines shift exceptWrapped [] [] (Or.inl rfl) (Or.inl rfl) rfl
  dsimp only at steps
  rwa [List.nil_append, List.nil_append, Text.intercalate_lines] at steps

theorem map_extract_adjust :
    (extract (adjust t shift exceptWrapped).content exceptWrapped).map
        (fun h => (h.level, h.line, h.text)) =
      (extract t exceptWrapped).map fun h => (clampLevel h.level shift, h.line, h.text) := by
  rw [extract, extract, lines_adjust]
  exact (inStep_adjust t shift exceptWrapped).map_ofLines 0

theorem clamped_adjust :
    (adjust t shift exceptWrapped).clamped =
      (extract t exceptWrapped).countP fun h => leavesRange h.level shift :=
  clamped_shiftLines (excludedSpans t exceptWrapped) shift 0 0 t.lines

end Adjusted

end HeadingShift

/-- Shifting the headings of a text moves each of them by the same amount, up to the bounds on
levels, and neither makes nor hides any, whatever fences, inline code and tags there are: the text
is the same but for the marks of its headings. -/
theorem adjust_renumbers_headings (t : Text) (shift : Int) (exceptWrapped : Bool) :
    (extract (adjust t shift exceptWrapped).content exceptWrapped).map
        (fun h => (h.level, h.line, h.text)) =
        (extract t exceptWrapped).map (fun h => (clampLevel h.level shift, h.line, h.text)) ∧
      (adjust t shift exceptWrapped).clamped = (extract t exceptWrapped).countP
        (fun h => ¬ (minLevel ≤ h.level + shift ∧ h.level + shift ≤ maxLevel)) ∧
      Renumbers shift 0 t (extract t exceptWrapped) (adjust t shift exceptWrapped).content := by
  refine ⟨map_extract_adjust t shift exceptWrapped, ?_, ?_⟩
  · rw [clamped_adjust]
    exact List.countP_congr fun h _ => by rw [leavesRange_iff, decide_eq_true_iff]
  · have renumbered := renumbers_shifted (excludedSpans t exceptWrapped) shift 0 0 t.lines
    rwa [Text.intercalate_lines] at renumbered

end Transclusion
