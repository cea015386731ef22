import Transclusion.Proofs.ListedReferences
import Transclusion.Proofs.MentionGrammar

namespace Transclusion

namespace Text

/-- A text is its last line, or a line with its newline and what follows. -/
theorem byLines {P : Text → Prop} (last : ∀ u, '\n' ∉ u → P u)
    (line : ∀ u t, '\n' ∉ u → P t → P (u ++ '\n' :: t)) (t : Text) :
    P t := by
  have open_ (u : Text) (clean : '\n' ∉ u) : P (u ++ t) := by
    induction t generalizing u with
    | nil => exact (List.append_nil u).symm ▸ last u clean
    | cons c t ih =>
      by_cases newline : c = '\n'
      · subst newline
        exact line u t clean (ih [] List.not_mem_nil)
      · have more := ih (u ++ [c]) (by simp [clean, Ne.symm newline])
        simpa using more
  exact open_ [] List.not_mem_nil

variable {u : Text}

theorem linesInclusive_line (clean : '\n' ∉ u) (t : Text) :
    linesInclusive (u ++ '\n' :: t) = (u ++ ['\n']) :: linesInclusive t := by
  induction u with
  | nil => rfl
  | cons c u ih =>
    simp only [List.mem_cons, not_or] at clean
    rw [List.cons_append, linesInclusive, if_neg (Ne.symm clean.1), ih clean.2]
    rfl

theorem linesInclusive_last (clean : '\n' ∉ u) (some : u ≠ []) : linesInclusive u = [u] := by
  induction u with
  | nil => exact absurd rfl some
  | cons c u ih =>
    simp only [List.mem_cons, not_or] at clean
    rw [linesInclusive, if_neg (Ne.symm clean.1)]
    cases u with
    | nil => rfl
    | cons d u => rw [ih clean.2 (List.cons_ne_nil d u)]

end Text

namespace FrontMatter

/-- A line that opens or closes the block: three dashes, and any number of carriage returns behind them. -/
def IsRule (line : Text) : Prop := line.trimReturns = ['-', '-', '-']

variable {u : Text}

theorem IsRule.ne_nil (rule : IsRule u) : u ≠ [] := by
  rintro rfl
  cases rule

theorem isFence_line : isFence (u ++ ['\n']) ↔ IsRule u := by
  rw [isFence, List.getLast?_concat, if_pos rfl, List.dropLast_concat, IsRule, decide_eq_true_eq]

theorem isFence_last (clean : '\n' ∉ u) : isFence u ↔ IsRule u := by
  have other : u.getLast? ≠ some '\n' := fun last => clean (List.mem_of_getLast? last)
  rw [isFence, if_neg other, IsRule, decide_eq_true_eq]

/-- The text before the first rule, that rule and the text behind it. -/
structure IsCut (t raw closing body : Text) : Prop where
  whole : t = raw ++ closing ++ body
  ends : EndsLine raw
  free : ∀ line ∈ raw.lines, ¬ IsRule line
  closes : ∃ last, '\n' ∉ last ∧ IsRule last ∧ (closing = last ++ ['\n'] ∨ closing = last ∧ body = [])

theorem not_isRule_of_mem_lines_nil {line : Text} (member : line ∈ Text.lines []) : ¬ IsRule line := by
  cases List.mem_singleton.mp member
  exact fun rule => rule.ne_nil rfl

namespace IsCut

variable {t raw closing body : Text}

theorem here (clean : '\n' ∉ u) (rule : IsRule u)
    (closes : closing = u ++ ['\n'] ∨ closing = u ∧ body = []) :
    IsCut (closing ++ body) [] closing body :=
  ⟨rfl, Or.inl rfl, fun _ => not_isRule_of_mem_lines_nil, u, clean, rule, closes⟩

theorem later (clean : '\n' ∉ u) (plain : ¬ IsRule u) (cut : IsCut t raw closing body) :
    IsCut (u ++ '\n' :: t) (u ++ ['\n'] ++ raw) closing body where
  whole := by simp [cut.whole]
  ends := by
    rcases cut.ends with rfl | ⟨v, rfl⟩
    · exact Or.inr ⟨u, List.append_nil _⟩
    · exact Or.inr ⟨u ++ ['\n'] ++ v, by simp⟩
  free := by
    rw [List.append_assoc, List.singleton_append, Text.lines,
      List.splitOn_append_cons_self_of_not_mem clean]
    exact List.forall_mem_cons.mpr ⟨plain, cut.free⟩
  closes := cut.closes

/-- Looked for from the end of the block, the last line begins where the rule does: line ends behind
it do not count. -/
theorem from_end (cut : IsCut t raw closing body) {front : Text} (line : front = u ++ ['\n']) :
    Text.dropEndWhile (· ≠ '\n')
      (Text.dropEndWhile (fun c => c = '\n' ∨ c = '\r') (front ++ raw ++ closing)) = front ++ raw := by
  obtain ⟨last, _, rule, closes⟩ := cut.closes
  obtain ⟨returns, whole, only⟩ := Text.exists_dropEndWhile (· = '\r') last
  rw [show Text.dropEndWhile (· = '\r') last = ['-', '-', '-'] from rule] at whole
  obtain ⟨tail, split, ends⟩ :
      ∃ tail, closing = ['-', '-', '-'] ++ tail ∧ ∀ c ∈ tail, c = '\n' ∨ c = '\r' := by
    have carriage : ∀ c ∈ returns, c = '\n' ∨ c = '\r' :=
      fun c member => Or.inr (of_decide_eq_true (only c member))
    rcases closes with rfl | ⟨rfl, _⟩
    · exact ⟨returns ++ ['\n'], by rw [whole, List.append_assoc],
        by simpa [or_imp, forall_and] using carriage⟩
    · exact ⟨returns, whole, carriage⟩
  have dashes : Text.dropEndWhile (fun c => c = '\n' ∨ c = '\r') (front ++ raw ++ closing) =
      front ++ raw ++ ['-', '-', '-'] :=
    Text.dropEndWhile_eq_iff.mpr ⟨tail, by simp [split], by simpa using ends, by simp⟩
  rw [dashes]
  refine Text.dropEndWhile_eq_iff.mpr ⟨['-', '-', '-'], rfl, by simp, ?_⟩
  rcases cut.ends with rfl | ⟨v, rfl⟩
  · simp [line]
  · simp [← List.append_assoc]

end IsCut

/-- Text is cut at its first rule where it has one. -/
theorem isCut_lines (t : Text) : match t.linesInclusive.dropWhile (!isFence ·) with
    | closing :: rest =>
      IsCut t (t.linesInclusive.takeWhile (!isFence ·)).flatten closing rest.flatten ∧
        ∃ line ∈ t.lines, IsRule line
    | [] => ∀ line ∈ t.lines, ¬ IsRule line := by
  induction t using Text.byLines with
  | last u clean =>
    have alone : Text.lines u = [u] := List.splitOn_eq_singleton clean
    by_cases none : u = []
    · subst none
      exact fun _ => not_isRule_of_mem_lines_nil
    · rw [Text.linesInclusive_last clean none, alone]
      by_cases rule : IsRule u
      · have fence : isFence u := (isFence_last clean).mpr rule
        have cut : IsCut (u ++ []) [] u [] := .here clean rule (Or.inr ⟨rfl, rfl⟩)
        rw [List.append_nil] at cut
        simpa [fence] using ⟨cut, rule⟩
      · have plain : isFence u = false :=
          Bool.eq_false_iff.mpr fun fence => rule ((isFence_last clean).mp fence)
        simpa [plain] using rule
  | line u t clean ih =>
    have first : Text.lines (u ++ '\n' :: t) = u :: t.lines :=
      List.splitOn_append_cons_self_of_not_mem clean t
    rw [Text.linesInclusive_line clean, first]
    by_cases rule : IsRule u
    · have fence : isFence (u ++ ['\n']) := isFence_line.mpr rule
      have cut : IsCut (u ++ ['\n'] ++ t) [] (u ++ ['\n']) t := .here clean rule (Or.inl rfl)
      rw [List.append_assoc, List.singleton_append] at cut
      simpa [fence, Text.flatten_linesInclusive] using ⟨cut, Or.inl rule⟩
    · have plain : isFence (u ++ ['\n']) = false :=
        Bool.eq_false_iff.mpr fun fence => rule (isFence_line.mp fence)
      have skip : ((u ++ ['\n']) :: t.linesInclusive).dropWhile (!isFence ·) =
          t.linesInclusive.dropWhile (!isFence ·) := by
        simp [plain]
      have keep : ((u ++ ['\n']) :: t.linesInclusive).takeWhile (!isFence ·) =
          (u ++ ['\n']) :: t.linesInclusive.takeWhile (!isFence ·) := by
        simp [plain]
      rw [skip, keep]
      split at ih
      · obtain ⟨cut, line, member, closes⟩ := ih
        exact ⟨cut.later clean rule, line, List.mem_cons_of_mem _ member, closes⟩
      · exact List.forall_mem_cons.mpr ⟨rule, ih⟩

theorem split?_last (clean : '\n' ∉ u) : split? u = none := by
  have other : u.getLast? ≠ some '\n' := fun last => clean (List.mem_of_getLast? last)
  by_cases none : u = []
  · subst none
    rfl
  · rw [split?, Text.linesInclusive_last clean none]
    simp [other]

theorem split?_line (clean : '\n' ∉ u) (rule : IsRule u) (t : Text) : split? (u ++ '\n' :: t) =
    match t.linesInclusive.dropWhile (!isFence ·) with
    | closing :: rest =>
      some ⟨u ++ ['\n'], (t.linesInclusive.takeWhile (!isFence ·)).flatten, closing, rest.flatten⟩
    | [] => none := by
  have opens : isFence (u ++ ['\n']) && (u ++ ['\n']).getLast? = some '\n' := by
    simp [isFence_line.mpr rule]
  rw [split?, Text.linesInclusive_line clean]
  exact if_pos opens

theorem split?_plain (clean : '\n' ∉ u) (plain : ¬ IsRule u) (t : Text) :
    split? (u ++ '\n' :: t) = none := by
  have other : isFence (u ++ ['\n']) = false :=
    Bool.eq_false_iff.mpr fun fence => plain (isFence_line.mp fence)
  rw [split?, Text.linesInclusive_line clean]
  simp [other]

/-- What follows the bytes of the block is the document without it. -/
theorem dropBytes_sizeIn (t : Text) : t.dropBytes (sizeIn t) = strip t := by
  unfold sizeIn strip
  cases found : split? t with
  | none => exact Text.dropBytes_append [] t
  | some matter =>
    obtain ⟨whole, _⟩ := split?_eq_some found
    have behind := Text.dropBytes_append matter.block matter.body
    rwa [← whole, size_block] at behind

/-- A document has front matter where its first line and another one are rules, and then it is the
line that opens the block, the text up to the next rule, that rule and the rest; else all of it is
kept. From the end of the block the same text is found. -/
theorem document_decomposes (t : Text) :
    ((split? t).isSome ↔ ∃ first later, t.lines = first :: later ∧ IsRule first ∧
      ∃ line ∈ later, IsRule line) ∧
    (∀ files options file session, (compileContent files options t file session).1.frontMatter = split? t) ∧
    t.dropBytes (sizeIn t) = strip t ∧
    match split? t with
    | some matter =>
      t = matter.opening ++ matter.raw ++ matter.closing ++ strip t ∧
        (∃ first, matter.opening = first ++ ['\n'] ∧ '\n' ∉ first ∧ IsRule first) ∧
        (∃ last, '\n' ∉ last ∧ IsRule last ∧
          (matter.closing = last ++ ['\n'] ∨ matter.closing = last ∧ strip t = [])) ∧
        EndsLine matter.raw ∧ (∀ line ∈ matter.raw.lines, ¬ IsRule line) ∧
        Text.dropEndWhile (· ≠ '\n') (Text.dropEndWhile (fun c => c = '\n' ∨ c = '\r') matter.block) =
          matter.opening ++ matter.raw
    | none => strip t = t := by
  refine ⟨?_, fun _ _ _ _ => rfl, dropBytes_sizeIn t, ?_⟩
  · induction t using Text.byLines with
    | last u clean =>
      have alone : Text.lines u = [u] := List.splitOn_eq_singleton clean
      simp [split?_last clean, alone]
    | line u t clean _ =>
      have first : Text.lines (u ++ '\n' :: t) = u :: t.lines :=
        List.splitOn_append_cons_self_of_not_mem clean t
      rw [first]
      by_cases rule : IsRule u
      · have cut := isCut_lines t
        rw [split?_line clean rule]
        split at cut
        · simpa [rule] using cut.2
        · simpa [rule] using cut
      · simp [split?_plain clean rule, rule]
  · induction t using Text.byLines with
    | last u clean => rw [strip, split?_last clean]
    | line u t clean _ =>
      by_cases rule : IsRule u
      · have cut := isCut_lines t
        rw [strip, split?_line clean rule]
        split at cut
        · obtain ⟨cut, _⟩ := cut
          refine ⟨?_, ⟨u, rfl, clean, rule⟩, cut.closes, cut.ends, cut.free, cut.from_end rfl⟩
          simpa using cut.whole
        · rfl
      · rw [strip, split?_plain clean rule]

/-- The line that closes the block may be the last one, and returns belong to the lines. -/
example : split? "---\r\r\n\n---\r".toList =
    some ⟨"---\r\r\n".toList, "\n".toList, "---\r".toList, []⟩ := by decide

end FrontMatter

end Transclusion
