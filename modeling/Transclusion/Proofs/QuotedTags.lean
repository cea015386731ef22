import Transclusion.Proofs.MarkShift

namespace Transclusion

open WrapperTag Heading

namespace Heading

theorem ofLines_union (excluded wrapped : SpanSet) (offset number : Nat) (lines : List Text) :
    ofLines (excluded.union wrapped) offset number lines =
      (ofLines excluded offset number lines).filter fun h => !wrapped.contains h.offset := by
  induction lines generalizing offset number with
  | nil => rfl
  | cons line more ih =>
    rcases heading_or_passed excluded offset line with ⟨level, rest, found, outside⟩ | passed
    · rw [ofLines_heading found outside, List.filter_cons, ← ih]
      cases inside : wrapped.contains offset with
      | false =>
        have free : (excluded.union wrapped).contains offset = false := by
          rw [SpanSet.contains_union, outside, inside]; rfl
        rw [ofLines_heading found free]
        rfl
      | true =>
        have hidden : (excluded.union wrapped).contains offset := by
          rw [SpanSet.contains_union, inside, Bool.or_true]
        rw [ofLines_passed (Or.inr hidden)]
        rfl
    · have passed' : ofLine? line = none ∨ (excluded.union wrapped).contains offset :=
        passed.imp_right fun inside => by rw [SpanSet.contains_union, inside, Bool.true_or]
      rw [ofLines_passed passed, ofLines_passed passed', ih]

/-- Leaving out what was inlined earlier takes away the headings that begin in a block, and no others. -/
theorem extract_exceptWrapped (t : Text) :
    extract t true = (extract t false).filter fun h => !(wrapperSpans t).contains h.offset :=
  ofLines_union (codeSpans t) (wrapperSpans t) 0 0 t.lines

theorem exists_mark_of_mem_ofLines {excluded : SpanSet} {offset number : Nat} {lines : List Text}
    {h : Heading} (member : h ∈ ofLines excluded offset number lines) :
    ∃ front rest : Text, ['\n'].intercalate lines = front ++ '#' :: rest ∧
      offset + front.size = h.offset := by
  induction lines generalizing offset number with
  | nil => cases member
  | cons line more ih =>
    have later (behind : h ∈ ofLines excluded (offset + line.size + 1) (number + 1) more) :
        ∃ front rest : Text, ['\n'].intercalate (line :: more) = front ++ '#' :: rest ∧
          offset + front.size = h.offset := by
      obtain ⟨front, rest, split, place⟩ := ih behind
      have nonempty : more ≠ [] := by
        rintro rfl
        cases behind
      refine ⟨line ++ '\n' :: front, rest,
        by rw [intercalate_line line nonempty, split, List.append_assoc]; rfl, ?_⟩
      rw [← place, Text.size_append, Text.size, show ('\n').utf8Size = 1 from rfl]
      omega
    rcases heading_or_passed excluded offset line with ⟨level, rest, found, outside⟩ | passed
    · rw [ofLines_heading found outside] at member
      rcases List.mem_cons.mp member with rfl | behind
      · obtain ⟨inside, rfl⟩ :=
          exists_of_level?_eq_some (show level? line = some level by rw [level?, found]; rfl)
        exact ⟨[], _, List.intercalate_cons_cons_left, rfl⟩
      · exact later behind
    · rw [ofLines_passed passed] at member
      exact later member

theorem exists_mark_of_mem_extract {t : Text} {exceptWrapped : Bool} {h : Heading}
    (member : h ∈ extract t exceptWrapped) :
    ∃ front rest : Text, t = front ++ '#' :: rest ∧ front.size = h.offset := by
  obtain ⟨front, rest, split, place⟩ := exists_mark_of_mem_ofLines member
  exact ⟨front, rest, t.intercalate_lines ▸ split, by rw [← place, Nat.zero_add]⟩

end Heading

namespace WrapperTag

/-- The tags of a text that begin before an offset, whether they stand in code or not. -/
def tagsBefore (t : Text) (offset : Nat) : List WrapperTag :=
  ((scan 0 0 t).filter (·.2.start < offset)).map (·.1)

theorem tagsBefore_mark (front rest : Text) :
    tagsBefore (front ++ '#' :: rest) front.size = begun 0 front ('#' :: rest) := by
  obtain ⟨early, late, split, tags, before, behind⟩ := exists_scan_mark front rest
  have kept : early.filter (·.2.start < front.size) = early :=
    List.filter_eq_self.mpr fun tag member => decide_eq_true (before tag member).1
  have dropped : late.filter (·.2.start < front.size) = [] :=
    List.filter_eq_nil_iff.mpr fun tag member => by simpa using (behind tag member).1.le
  rw [tagsBefore, split, List.filter_append, kept, dropped, List.append_nil, tags]

end WrapperTag

/-- Of the headings outside of code, those are left when inlined documents are passed over before
which every block is closed again. Tags that are quoted in code count like any others, so one that
is quoted alone hides what follows it. -/
theorem heading_left_iff_tags_closed {t : Text} {h : Heading} (plain : h ∈ extract t false) :
    h ∈ extract t true ↔ depth 0 (tagsBefore t h.offset) = 0 := by
  obtain ⟨front, rest, rfl, place⟩ := exists_mark_of_mem_extract plain
  rw [extract_exceptWrapped, List.mem_filter, and_iff_right plain, ← place, contains_wrapperSpans_mark,
    tagsBefore_mark]
  simp

/-- Both tags are quoted. -/
theorem heading_left_iff_tags_closed_quoted :
    let t := "From \x60<file path=\"a.md\">\x60 to \x60</file>\x60.\n# Setup\n".toList
    let h : Heading := ⟨1, 40, 1, "Setup".toList⟩
    h ∈ extract t false ∧ h ∈ extract t true ∧ tagsBefore t h.offset = [.opening, .closing] ∧
      ∀ tag ∈ scan 0 0 t, (codeSpans t).contains tag.2.start := by
  intro t h
  have plain : h ∈ extract t false := by decide +kernel
  have quoted : tagsBefore t h.offset = [.opening, .closing] ∧
      ∀ tag ∈ scan 0 0 t, (codeSpans t).contains tag.2.start := by
    decide +kernel
  have closed : depth 0 (tagsBefore t h.offset) = 0 := by rw [quoted.1]; rfl
  exact ⟨plain, (heading_left_iff_tags_closed plain).mpr closed, quoted⟩

-- only the opening tag is quoted
example :
    let t := "Markup is quoted as \x60<file path=\"a.md\">\x60 here.\n# Setup\n".toList
    (∀ tag ∈ scan 0 0 t, (codeSpans t).contains tag.2.start) ∧ (extract t false).map (·.offset) = [47] ∧
      extract t true = [] := by
  decide +kernel

end Transclusion
