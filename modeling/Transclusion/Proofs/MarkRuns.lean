import Transclusion.Proofs.FenceCount
import Transclusion.Wrapper

namespace Transclusion

/-- The text with the marks of every run of them drawn together into one. -/
def squeeze : Text → Text
  | [] => []
  | c :: t => if c = '#' ∧ t.head? = some '#' then squeeze t else c :: squeeze t

section Squeeze

theorem squeeze_cons {c : Char} (other : c ≠ '#') (t : Text) : squeeze (c :: t) = c :: squeeze t := by
  rw [squeeze, if_neg fun marks => other marks.1]

theorem head?_squeeze (t : Text) : (squeeze t).head? = t.head? := by
  induction t with
  | nil => rfl
  | cons c t ih =>
    unfold squeeze
    split
    · rename_i marks
      rw [ih, marks.1, marks.2, List.head?_cons]
    · rfl

theorem exists_of_squeeze_eq_cons {t u : Text} {c : Char} (same : squeeze t = c :: u) (other : c ≠ '#') :
    ∃ rest, t = c :: rest ∧ squeeze rest = u := by
  obtain ⟨rest, rfl⟩ := List.head?_eq_some_iff.mp ((head?_squeeze t).symm.trans (congrArg List.head? same))
  rw [squeeze_cons other] at same
  exact ⟨rest, rfl, (List.cons.inj same).2⟩

/-- Texts between which no run goes on can be drawn together apart. -/
theorem squeeze_append {u t : Text} (apart : u.getLast? = some '#' → t.head? ≠ some '#') :
    squeeze (u ++ t) = squeeze u ++ squeeze t := by
  induction u with
  | nil => rfl
  | cons c u ih =>
    cases u with
    | nil =>
      have alone : ¬ (c = '#' ∧ t.head? = some '#') := fun marks => apart (by rw [marks.1]; rfl) marks.2
      rw [List.singleton_append, squeeze, if_neg alone, squeeze, if_neg (by simp)]
      rfl
    | cons d u =>
      have later := ih fun last => apart (by rwa [List.getLast?_cons_cons])
      rw [List.cons_append, squeeze, squeeze, later, List.cons_append, List.head?_cons, List.head?_cons]
      split <;> rfl

theorem squeeze_append_of_endsLine {u : Text} (ends : EndsLine u) (t : Text) :
    squeeze (u ++ t) = squeeze u ++ squeeze t := by
  refine squeeze_append fun last => ?_
  rcases ends with rfl | ⟨line, rfl⟩
  · cases last
  · rw [List.getLast?_concat] at last
    cases last

theorem squeeze_marks {n : Nat} (some : n ≠ 0) {rest : Text} (other : '#' ∉ rest.head?) :
    squeeze (List.replicate n '#' ++ rest) = '#' :: squeeze rest := by
  obtain ⟨n, rfl⟩ := Nat.exists_eq_add_one_of_ne_zero some
  induction n with
  | zero =>
    rw [List.replicate_one, List.singleton_append, squeeze, if_neg]
    exact fun marks => other marks.2
  | succ n ih =>
    rw [List.replicate_succ, List.cons_append, squeeze, if_pos ⟨rfl, by rw [List.replicate_succ]; rfl⟩]
    exact ih (Nat.succ_ne_zero n)

theorem squeeze_suffix (u t : Text) : squeeze t <:+ squeeze (u ++ t) := by
  induction u with
  | nil => exact List.suffix_refl _
  | cons c u ih =>
    rw [List.cons_append, squeeze]
    split
    · exact ih
    · exact ih.trans (List.suffix_cons ..)

theorem dropWhile_squeeze (p : Char → Bool) (t : Text) :
    (squeeze t).dropWhile p = squeeze (t.dropWhile p) := by
  induction t with
  | nil => rfl
  | cons c t ih =>
    by_cases marks : c = '#' ∧ t.head? = some '#'
    · rw [squeeze, if_pos marks, ih]
      obtain ⟨rfl, more⟩ := marks
      by_cases drops : p '#'
      · rw [List.dropWhile_cons_of_pos drops]
      · obtain ⟨rest, rfl⟩ := List.head?_eq_some_iff.mp more
        rw [List.dropWhile_cons_of_neg drops, List.dropWhile_cons_of_neg drops]
        exact (if_pos ⟨rfl, more⟩).symm
    · rw [squeeze, if_neg marks]
      by_cases drops : p c
      · rw [List.dropWhile_cons_of_pos drops, List.dropWhile_cons_of_pos drops, ih]
      · rw [List.dropWhile_cons_of_neg drops, List.dropWhile_cons_of_neg drops]
        exact (if_neg marks).symm

theorem length_dropWhile_eq_iff {p : Char → Bool} {t : Text} :
    (t.dropWhile p).length = t.length ↔ ∀ c ∈ t.head?, ¬ p c := by
  cases t with
  | nil => simp
  | cons c t =>
    by_cases drops : p c
    · have shorter := (List.dropWhile_suffix p (l := t)).length_le
      rw [List.dropWhile_cons_of_pos drops, List.length_cons]
      exact iff_of_false (by omega) (by simp [drops])
    · rw [List.dropWhile_cons_of_neg drops]
      exact iff_of_true rfl (by simpa using drops)

end Squeeze

/-- Marks are no backticks, so it does not matter to fences how many there are. -/
theorem fenceCount_squeeze (t : Text) : fenceCount (squeeze t) = fenceCount t := by
  have ends (offset pending : Nat) {c : Char} (other : c ≠ backtick) (t : Text) :
      (fenceRuns offset pending (c :: t)).length = (fenceRuns 0 pending []).length + fenceCount t := by
    have split := length_fenceRuns_append_cons other offset pending [] t
    rw [List.nil_append] at split
    rw [split]
    congr 1
    unfold fenceRuns
    split <;> rfl
  suffices anywhere : ∀ offset offset' pending,
      (fenceRuns offset' pending (squeeze t)).length = (fenceRuns offset pending t).length
        from anywhere 0 0 0
  induction t with
  | nil =>
    intro offset offset' pending
    unfold squeeze fenceRuns
    split <;> rfl
  | cons c t ih =>
    intro offset offset' pending
    by_cases marks : c = '#' ∧ t.head? = some '#'
    · rw [squeeze, if_pos marks, ih 0]
      obtain ⟨rfl, more⟩ := marks
      obtain ⟨rest, rfl⟩ := List.head?_eq_some_iff.mp more
      rw [ends _ _ (by decide), ends _ _ (by decide), fenceCount_cons (by decide)]
    · rw [squeeze, if_neg marks]
      by_cases tick : c = backtick
      · rw [fenceRuns, if_pos tick, fenceRuns, if_pos tick]
        exact ih ..
      · have rest : fenceCount (squeeze t) = fenceCount t := ih 0 0 0
        rw [ends _ _ tick, ends _ _ tick, rest]

theorem isPrefixOf?_squeeze {lead : Text} (clean : '#' ∉ lead) (t : Text) :
    lead.isPrefixOf? (squeeze t) = (lead.isPrefixOf? t).map squeeze := by
  induction lead generalizing t with
  | nil => rfl
  | cons a lead ih =>
    simp only [List.mem_cons, not_or] at clean
    cases t with
    | nil => rfl
    | cons c t =>
      by_cases mark : c = '#'
      · obtain ⟨rest, first⟩ := List.head?_eq_some_iff.mp (head?_squeeze (c :: t))
        have other : a ≠ c := fun same => clean.1 (mark.symm.trans same.symm)
        have differs : ¬ (a == c) = true := mt beq_iff_eq.mp other
        rw [first, List.isPrefixOf?, if_neg differs, List.isPrefixOf?, if_neg differs]
        rfl
      · rw [squeeze_cons mark, List.isPrefixOf?, List.isPrefixOf?, ih clean.2]
        split <;> rfl

namespace WrapperTag

/-- The same tag, with what is behind it drawn together. -/
def squeezed (found : WrapperTag × Text) : WrapperTag × Text := (found.1, squeeze found.2)

theorem tail?_squeeze (t : Text) : tail? (squeeze t) = (tail? t).map squeezed := by
  rw [tail?, dropWhile_squeeze, tail?]
  generalize t.dropWhile isBlank = u
  split
  · rename_i rest slash
    obtain ⟨v, rfl, behind⟩ := exists_of_squeeze_eq_cons slash (by decide)
    obtain ⟨w, rfl, rfl⟩ := exists_of_squeeze_eq_cons behind (by decide)
    rfl
  · rename_i rest bracket
    obtain ⟨v, rfl, rfl⟩ := exists_of_squeeze_eq_cons bracket (by decide)
    rfl
  · rename_i neither nor
    split
    · rename_i rest
      exact (neither (squeeze rest) (by rw [squeeze_cons (by decide), squeeze_cons (by decide)])).elim
    · rename_i rest
      exact (nor (squeeze rest) (by rw [squeeze_cons (by decide)])).elim
    · rfl

/-- What a text begins with, and what is behind it, is found whatever the number of marks in it:
only the value of a path can hold any. -/
theorem atStart?_squeeze (t : Text) : atStart? (squeeze t) = (atStart? t).map squeezed := by
  rw [atStart?, isPrefixOf?_squeeze (by decide), atStart?]
  cases (['<', '/'] ++ name ++ ['>']).isPrefixOf? t with
  | some rest => rfl
  | none =>
    simp only [Option.map_none]
    rw [isPrefixOf?_squeeze (by decide)]
    cases ('<' :: name).isPrefixOf? t with
    | none => rfl
    | some behind =>
      have blank : ((squeeze behind).dropWhile isBlank).length = (squeeze behind).length ↔
          (behind.dropWhile isBlank).length = behind.length := by
        rw [length_dropWhile_eq_iff, length_dropWhile_eq_iff, head?_squeeze]
      simp only [Option.map_some, Option.bind_eq_bind, Option.bind_some]
      by_cases none : (behind.dropWhile isBlank).length = behind.length
      · rw [if_pos (blank.mpr none), if_pos none]
        rfl
      · rw [if_neg (mt blank.mp none), if_neg none, dropWhile_squeeze, isPrefixOf?_squeeze (by decide)]
        cases pathAttribute.isPrefixOf? (behind.dropWhile isBlank) with
        | none => rfl
        | some value =>
          simp only [Option.map_some, Option.bind_some]
          rw [dropWhile_squeeze]
          generalize value.dropWhile (· ≠ '"') = u
          split
          · rename_i rest quote
            obtain ⟨v, rfl, rfl⟩ := exists_of_squeeze_eq_cons quote (by decide)
            exact tail?_squeeze v
          · rename_i neither
            split
            · rename_i rest
              exact (neither (squeeze rest) (by rw [squeeze_cons (by decide)])).elim
            · rfl

end WrapperTag

end Transclusion
