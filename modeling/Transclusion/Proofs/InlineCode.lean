import Mathlib.Data.List.Basic
import Transclusion.Proofs.CodeLayout

namespace Transclusion

/-- Where a text that starts at byte `offset` is searched for `P` from left to right: a match is
taken at the first place where one begins, and the search goes on behind it. -/
inductive Leftmost (P : Text → Prop) : Nat → Text → List Span → Prop
  | done {offset} : Leftmost P offset [] []
  | pass {offset c t spans} : (∀ m rest, c :: t = m ++ rest → ¬ P m) →
      Leftmost P (offset + c.utf8Size) t spans →
      Leftmost P offset (c :: t) spans
  | take {offset m t spans} : P m → Leftmost P (offset + m.size) t spans →
      Leftmost P offset (m ++ t) (⟨offset, offset + m.size⟩ :: spans)

/-- A character of inline code. -/
def IsInlineChar (c : Char) : Prop := c ≠ backtick ∧ c ≠ '\n'

/-- A backtick, some characters of one line that are no backticks, and a backtick. -/
def IsInlineCode (m : Text) : Prop :=
  ∃ inside, m = backtick :: (inside ++ [backtick]) ∧ inside ≠ [] ∧ ∀ c ∈ inside, IsInlineChar c

/-- Plain characters in front of one that is not plain are told apart from what follows. -/
theorem plain_split {u v : Text} {c d : Char} {t w : Text} (plain : ∀ a ∈ u, IsInlineChar a)
    (plain' : ∀ a ∈ v, IsInlineChar a) (other : ¬ IsInlineChar c) (other' : ¬ IsInlineChar d)
    (same : u ++ c :: t = v ++ d :: w) : u = v ∧ c = d ∧ t = w := by
  induction u generalizing v with
  | nil =>
    cases v with
    | nil => exact ⟨rfl, List.cons.inj same⟩
    | cons b v =>
      obtain ⟨rfl, _⟩ := List.cons.inj same
      exact absurd (plain' c (List.mem_cons_self ..)) other
  | cons a u ih =>
    cases v with
    | nil =>
      obtain ⟨rfl, _⟩ := List.cons.inj same
      exact absurd (plain a (List.mem_cons_self ..)) other'
    | cons b v =>
      obtain ⟨rfl, rest⟩ := List.cons.inj same
      obtain ⟨rfl, ends⟩ := ih (fun x member => plain x (List.mem_cons_of_mem _ member))
        (fun x member => plain' x (List.mem_cons_of_mem _ member)) rest
      exact ⟨rfl, ends⟩

theorem not_isInlineChar_backtick : ¬ IsInlineChar backtick := fun plain => plain.1 rfl

theorem not_isInlineChar_newline : ¬ IsInlineChar '\n' := fun plain => plain.2 rfl

theorem backtick_not_mem {w : Text} (plain : ∀ a ∈ w, IsInlineChar a) : backtick ∉ w :=
  fun member => (plain _ member).1 rfl

namespace IsInlineCode

variable {m m' t t' : Text}

theorem ne_nil (code : IsInlineCode m) : m ≠ [] := by
  obtain ⟨inside, rfl, _⟩ := code
  exact List.cons_ne_nil _ _

/-- Where two matches begin at the same place they are one. -/
theorem unique (code : IsInlineCode m) (code' : IsInlineCode m') (same : m ++ t = m' ++ t') :
    m = m' ∧ t = t' := by
  obtain ⟨inside, rfl, _, plain⟩ := code
  obtain ⟨inside', rfl, _, plain'⟩ := code'
  have rest : inside ++ backtick :: t = inside' ++ backtick :: t' := by simpa using same
  obtain ⟨rfl, _, rfl⟩ := plain_split plain plain' not_isInlineChar_backtick not_isInlineChar_backtick rest
  exact ⟨rfl, rfl⟩

theorem newline_not_mem (code : IsInlineCode m) : '\n' ∉ m := by
  obtain ⟨inside, rfl, _, plain⟩ := code
  intro member
  rcases List.mem_cons.mp member with tick | member
  · exact absurd tick (by decide)
  rcases List.mem_append.mp member with within | last
  · exact (plain _ within).2 rfl
  · exact absurd (List.mem_singleton.mp last) (by decide)

end IsInlineCode

namespace Leftmost

variable {offset : Nat} {t u : Text} {spans spans' : List Span}

/-- No inline code begins where there is no backtick. -/
theorem pass_plain {c : Char} (other : c ≠ backtick)
    (later : Leftmost IsInlineCode (offset + c.utf8Size) t spans) :
    Leftmost IsInlineCode offset (c :: t) spans := by
  refine .pass (fun m rest whole code => ?_) later
  obtain ⟨inside, rfl, _⟩ := code
  exact other (List.cons.inj whole).1

theorem pass_front (clean : backtick ∉ u) (later : Leftmost IsInlineCode (offset + u.size) t spans) :
    Leftmost IsInlineCode offset (u ++ t) spans := by
  induction u generalizing offset with
  | nil => exact later
  | cons c u ih =>
    simp only [List.mem_cons, not_or] at clean
    rw [Text.size, ← Nat.add_assoc] at later
    exact pass_plain (Ne.symm clean.1) (ih clean.2 later)

/-- A backtick is passed when what may follow in inline code is ended by something else, or there is
nothing of it. -/
theorem pass_tick {w : Text} {c : Char} {t : Text} (plain : ∀ a ∈ w, IsInlineChar a)
    (other : ¬ IsInlineChar c) (open_ : c = backtick → w = [])
    (later : Leftmost IsInlineCode (offset + 1) (w ++ c :: t) spans) :
    Leftmost IsInlineCode offset (backtick :: (w ++ c :: t)) spans := by
  refine .pass (fun m rest whole code => ?_) later
  obtain ⟨inside, rfl, some, plain'⟩ := code
  have split : w ++ c :: t = inside ++ backtick :: rest := by simpa using whole
  obtain ⟨rfl, tick, _⟩ := plain_split plain plain' other not_isInlineChar_backtick split
  exact some (open_ tick)

/-- A backtick is passed when nothing closes the inline code that it could open. -/
theorem pass_open {w : Text} (plain : ∀ a ∈ w, IsInlineChar a) :
    Leftmost IsInlineCode offset (backtick :: w) [] := by
  have clean := backtick_not_mem plain
  have later : Leftmost IsInlineCode (offset + 1) (w ++ []) [] := pass_front clean .done
  rw [List.append_nil] at later
  refine .pass (fun m rest whole code => ?_) later
  obtain ⟨inside, rfl, _⟩ := code
  have split : w = inside ++ backtick :: rest := by simpa using whole
  exact clean (split ▸ List.mem_append_right _ (List.mem_cons_self ..))

theorem take_code {w : Text} (some : w ≠ []) (plain : ∀ a ∈ w, IsInlineChar a)
    (later : Leftmost IsInlineCode (offset + 1 + w.size + 1) t spans) :
    Leftmost IsInlineCode offset (backtick :: (w ++ backtick :: t))
      (⟨offset, offset + 1 + w.size + 1⟩ :: spans) := by
  have code : IsInlineCode (backtick :: (w ++ [backtick])) := ⟨w, rfl, some, plain⟩
  have width : offset + Text.size (backtick :: (w ++ [backtick])) = offset + 1 + w.size + 1 := by
    rw [Text.size, Text.size_append, ← Nat.add_assoc, ← Nat.add_assoc]
    rfl
  rw [← width] at later ⊢
  simpa using take code later

theorem unique (found : Leftmost IsInlineCode offset t spans)
    (found' : Leftmost IsInlineCode offset t spans') :
    spans = spans' := by
  induction found generalizing spans' with
  | done =>
    generalize none : ([] : Text) = t at found'
    cases found' with
    | done => rfl
    | pass => cases none
    | take code => exact absurd (List.append_eq_nil_iff.mp none.symm).1 code.ne_nil
  | @pass offset c t spans free _ ih =>
    generalize whole : c :: t = v at found'
    cases found' with
    | done => cases whole
    | pass _ later =>
      obtain ⟨rfl, rfl⟩ := List.cons.inj whole
      exact ih later
    | take code => exact absurd code (free _ _ whole)
  | @take offset m t spans code _ ih =>
    generalize whole : m ++ t = v at found'
    cases found' with
    | done => exact absurd (List.append_eq_nil_iff.mp whole).1 code.ne_nil
    | pass free => exact absurd code (free _ _ whole.symm)
    | take code' later =>
      obtain ⟨rfl, rfl⟩ := code.unique code' whole
      rw [ih later]

end Leftmost

/-- The scan for inline code is the search for it, also from a backtick on that may open some: then
what was passed since is searched again with what is left. -/
theorem leftmost_inlineRuns (t : Text) :
    (∀ offset, Leftmost IsInlineCode offset t (inlineRuns offset none t)) ∧
      ∀ (start : Nat) (w : Text), (∀ a ∈ w, IsInlineChar a) →
        Leftmost IsInlineCode start (backtick :: (w ++ t))
          (inlineRuns (start + 1 + w.size) (some start) t) := by
  induction t with
  | nil =>
    exact ⟨fun offset => .done, fun start w plain =>
      (List.append_nil w).symm ▸ Leftmost.pass_open plain⟩
  | cons c t ih =>
    obtain ⟨closed, opened⟩ := ih
    by_cases newline : c = '\n'
    · subst newline
      have other : '\n' ≠ backtick := by decide
      refine ⟨fun offset => ?_, fun start w plain => ?_⟩
      · rw [inlineRuns, if_pos rfl]
        exact Leftmost.pass_plain other (closed _)
      · rw [inlineRuns, if_pos rfl]
        -- the line ends before anything could close the code, so all of it is passed
        exact Leftmost.pass_tick plain not_isInlineChar_newline (fun tick => absurd tick other)
          (Leftmost.pass_front (backtick_not_mem plain) (Leftmost.pass_plain other (closed _)))
    by_cases tick : c = backtick
    · subst tick
      have fresh (offset : Nat) : Leftmost IsInlineCode offset (backtick :: t)
          (inlineRuns (offset + 1) (some offset) t) :=
        opened offset [] (by simp)
      refine ⟨fun offset => ?_, fun start w plain => ?_⟩
      · rw [inlineRuns, if_neg newline, if_pos rfl]
        exact fresh offset
      · rw [inlineRuns, if_neg newline, if_pos rfl]
        split
        · rename_i some
          have filled : w ≠ [] := by
            rintro rfl
            simp [Text.size] at some
          exact Leftmost.take_code filled plain (closed _)
        · rename_i none
          have empty : w = [] := by
            cases w with
            | nil => rfl
            | cons a w =>
              have width := a.utf8Size_pos
              rw [Text.size] at none
              omega
          subst empty
          -- of two backticks in a row only the second can open code
          exact Leftmost.pass_tick (w := []) (by simp) not_isInlineChar_backtick (fun _ => rfl) (fresh _)
    · have plain' : IsInlineChar c := ⟨tick, newline⟩
      refine ⟨fun offset => ?_, fun start w plain => ?_⟩
      · rw [inlineRuns, if_neg newline, if_neg tick]
        exact Leftmost.pass_plain tick (closed _)
      · rw [inlineRuns, if_neg newline, if_neg tick]
        have more := opened start (w ++ [c]) (by simpa [or_imp, forall_and] using ⟨plain, plain'⟩)
        rw [Text.size_append, ← Nat.add_assoc] at more
        simpa [Text.size] using more

end Transclusion
