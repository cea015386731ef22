import Transclusion.HeadingShift
import Transclusion.Proofs.Mention

namespace Transclusion

theorem fenceRuns_of_plain {t : Text} (plain : backtick ∉ t) (offset : Nat) :
    fenceRuns offset 0 t = [] := by
  induction t generalizing offset with
  | nil => rfl
  | cons c t ih =>
    simp only [List.mem_cons, not_or] at plain
    simp only [fenceRuns, if_neg (Ne.symm plain.1), ih plain.2]
    rfl

theorem inlineRuns_of_plain {t : Text} (plain : backtick ∉ t) (offset : Nat) :
    inlineRuns offset none t = [] := by
  induction t generalizing offset with
  | nil => rfl
  | cons c t ih =>
    simp only [List.mem_cons, not_or] at plain
    simp only [inlineRuns, if_neg (Ne.symm plain.1), ih plain.2, ite_self]

/-- Without a backtick there is no code. -/
theorem codeSpans_of_plain {t : Text} (plain : backtick ∉ t) : codeSpans t = .empty := by
  have whole : t.slice 0 t.size = t := by
    have taken := Text.takeBytes_append t []
    rw [List.append_nil] at taken
    rwa [Text.slice, Nat.sub_zero, Text.dropBytes]
  have fenced : fencedSpans t = .empty := by
    rw [fencedSpans, fenceRuns_of_plain plain]
    rfl
  rw [codeSpans, inlineSpans, fenced]
  simp only [SpanSet.gaps, SpanSet.gaps.go, SpanSet.empty, List.flatMap_cons, whole,
    inlineRuns_of_plain plain]
  rfl

namespace Reference

/-- No mention begins in the text, which follows `before`, even if none of it is code. -/
def isInert (before : Option Char) : Text → Bool
  | [] => true
  | c :: t => !(c = '@' && mayFollow before && isPathLike (token t)) && isInert (some c) t

/-- A token ends before a character that has no place in it. -/
theorem token_append (u : Text) {t : Text} (apart : ∀ c ∈ t.head?, ¬ isTokenChar c) :
    token (u ++ t) = token u := by
  rw [token, takeWhile_append_of_head u apart, token]

theorem isInert_cons {before : Option Char} {c : Char} {t : Text} :
    isInert before (c :: t) ↔ ¬ (c = '@' ∧ mayFollow before ∧ isPathLike (token t)) ∧
      isInert (some c) t := by
  rw [isInert, Bool.and_eq_true, Bool.not_eq_true', Bool.eq_false_iff]
  simp only [ne_eq, Bool.and_eq_true, decide_eq_true_eq, and_assoc]

theorem scan_eq_nil {code : SpanSet} {first : Nat} {place : Place} {before : Option Char} {t : Text}
    (inert : isInert before t) : scan code first place before t = [] := by
  induction t generalizing place before with
  | nil => rfl
  | cons c t ih =>
    obtain ⟨none, later⟩ := isInert_cons.mp inert
    rw [scan, ih later, if_neg]
    simp only [Bool.and_eq_true, decide_eq_true_eq]
    rintro ⟨⟨⟨sign, follows⟩, _⟩, path⟩
    exact none ⟨sign, follows, path⟩

/-- Outside of code a text is inert up to the first mention that is found. -/
theorem isInert_of_scan {code : SpanSet} (plain : ∀ offset, code.contains offset = false)
    (first : Nat) (place : Place) {before : Option Char} {u t : Text}
    (apart : ∀ c ∈ t.head?, ¬ isTokenChar c)
    (later : ∀ r ∈ scan code first place before (u ++ t), place.offset + u.size ≤ r.start) :
    isInert before u := by
  induction u generalizing place before with
  | nil => rfl
  | cons c u ih =>
    rw [List.cons_append, scan, plain, Text.size] at later
    have passed : ∀ r ∈ scan code first (place.advance first c) (some c) (u ++ t),
        (place.advance first c).offset + Text.size u ≤ r.start := by
      intro r member
      rw [Place.offset_advance, Nat.add_assoc]
      refine later r ?_
      split
      · exact List.mem_cons_of_mem _ member
      · exact member
    refine isInert_cons.mpr ⟨?_, ih _ passed⟩
    -- a mention that begins here is found here, before `u` ends
    rintro ⟨sign, follows, path⟩
    rw [token_append u apart, if_pos (by simp [sign, follows, path])] at later
    have here := later _ (List.mem_cons_self ..)
    have width := c.utf8Size_pos
    dsimp only at here
    omega

/-- What stands before a text matters only as far as a mention may follow it. -/
theorem isInert_of_follows {before before' : Option Char}
    (weaker : mayFollow before' → mayFollow before) {t : Text} (inert : isInert before t) :
    isInert before' t := by
  cases t with
  | nil => rfl
  | cons c t =>
    obtain ⟨none, later⟩ := isInert_cons.mp inert
    exact isInert_cons.mpr ⟨fun ⟨sign, follows, path⟩ => none ⟨sign, weaker follows, path⟩, later⟩

/-- A character that belongs to no mention keeps apart what stands before it and behind it. -/
theorem isInert_append_cons {before : Option Char} {u : Text} {c : Char} (apart : ¬ isTokenChar c)
    (other : c ≠ '@') {t : Text} :
    isInert before (u ++ c :: t) ↔ isInert before u ∧ isInert (some c) t := by
  induction u generalizing before with
  | nil => simp [other, isInert]
  | cons d u ih =>
    have ends : ∀ d ∈ (c :: t).head?, ¬ isTokenChar d := fun d head => Option.some.inj head ▸ apart
    rw [List.cons_append, isInert_cons, isInert_cons, token_append u ends, ih, and_assoc]

theorem isInert_of_not_mem {before : Option Char} {t : Text} (clean : '@' ∉ t) : isInert before t := by
  induction t generalizing before with
  | nil => rfl
  | cons c t ih =>
    simp only [List.mem_cons, not_or] at clean
    exact isInert_cons.mpr ⟨fun mention => clean.1 mention.1.symm, ih clean.2⟩

theorem isInert_dropEndWhile {before : Option Char} {p : Char → Bool}
    (apart : ∀ c, p c → ¬ isTokenChar c ∧ c ≠ '@') {t : Text} (inert : isInert before t) :
    isInert before (Text.dropEndWhile p t) := by
  obtain ⟨tail, same, dropped⟩ := Text.exists_dropEndWhile p t
  cases tail with
  | nil => rwa [same, List.append_nil] at inert
  | cons c tail =>
    obtain ⟨ends, other⟩ := apart c (dropped c (List.mem_cons_self ..))
    rw [same, isInert_append_cons ends other] at inert
    exact inert.1

/-- Lines are inert on their own, since a newline lets a mention follow as the beginning of a text does. -/
theorem isInert_intercalate_lines {lines : List Text} :
    isInert none (['\n'].intercalate lines) ↔ ∀ line ∈ lines, isInert none line := by
  induction lines with
  | nil => simp [isInert]
  | cons line more ih =>
    cases more with
    | nil => simp
    | cons next rest =>
      have apart : ¬ isTokenChar '\n' := by decide
      have begins (t : Text) : isInert (some '\n') t ↔ isInert none t :=
        ⟨isInert_of_follows fun _ => by decide, isInert_of_follows fun _ => rfl⟩
      rw [List.forall_mem_cons, ← ih, List.intercalate_cons_cons, List.append_assoc, List.singleton_append,
        isInert_append_cons apart (by decide), begins]

end Reference

open Reference

namespace HeadingShift

/-- The marks of a heading are taken up to a blank, so other marks let nothing in. -/
theorem isInert_replicate {line rest : Text} {level : Nat}
    (heading : Heading.ofLine? line = some (level, rest)) (inert : isInert none line) (n : Nat) :
    isInert none (List.replicate n '#' ++ rest) := by
  have parts : line.takeWhile (· = '#') ++ line.dropWhile (· = '#') = line :=
    List.takeWhile_append_dropWhile
  unfold Heading.ofLine? at heading
  dsimp only at heading
  split at heading
  · rename_i c behind split
    split at heading
    · rename_i marks
      cases heading
      have blank : c = ' ' ∨ c = '\t' := by simpa using (Bool.and_eq_true_iff.mp marks).2
      have apart : ¬ isTokenChar c ∧ c ≠ '@' := by rcases blank with rfl | rfl <;> decide
      rw [← parts, split, isInert_append_cons apart.1 apart.2] at inert
      rw [split]
      exact (isInert_append_cons apart.1 apart.2).mpr ⟨isInert_of_not_mem (by simp), inert.2⟩
    · cases heading
  · cases heading

theorem isInert_shiftLines {excluded : SpanSet} {shift : Int} {offset : Nat} {lines : List Text}
    (inert : ∀ line ∈ lines, isInert none line) :
    ∀ line ∈ (shiftLines excluded shift offset lines).1, isInert none line := by
  induction lines generalizing offset with
  | nil => exact inert
  | cons line more ih =>
    obtain ⟨first, later⟩ := List.forall_mem_cons.mp inert
    have behind := @ih (offset + line.size + 1) later
    rw [shiftLines]
    generalize shiftLines excluded shift (offset + line.size + 1) more = shifted at behind ⊢
    dsimp only
    split
    · rename_i level rest heading
      split
      · exact List.forall_mem_cons.mpr ⟨first, behind⟩
      · exact List.forall_mem_cons.mpr ⟨isInert_replicate heading first _, behind⟩
    · exact List.forall_mem_cons.mpr ⟨first, behind⟩

theorem isInert_adjust {t : Text} (inert : isInert none t) (shift : Int) (exceptWrapped : Bool) :
    isInert none (adjust t shift exceptWrapped).content := by
  rw [← t.intercalate_lines, isInert_intercalate_lines] at inert
  exact isInert_intercalate_lines.mpr (isInert_shiftLines inert)

theorem isInert_under {t : Text} (inert : isInert none t) (mode : HeadingMode) (context : Nat) :
    isInert none (under t mode context).content := by
  cases mode with
  | normalize =>
    unfold under toLevel
    dsimp only
    split
    · exact isInert_adjust inert ..
    · exact inert
  | additive => exact isInert_adjust inert ..

end HeadingShift

/-- A text between two others that brings no mention in, and keeps the one in front from those behind it. -/
def Separates (markup : Text) : Prop :=
  ∀ before u t, isInert before (u ++ markup ++ t) ↔ isInert before u ∧ isInert (some '>') t

namespace WrapperTag

/-- Tags begin and end in brackets, neither of which belongs to a mention. -/
theorem separates_of_brackets {inside : Text} (inert : isInert (some '<') inside) :
    Separates (['<'] ++ inside ++ ['>']) := by
  intro before u t
  have bracket : ¬ isTokenChar '<' ∧ ¬ isTokenChar '>' := by decide
  have split : u ++ (['<'] ++ inside ++ ['>']) ++ t = u ++ '<' :: (inside ++ '>' :: t) := by simp
  rw [split, isInert_append_cons bracket.1 (by decide), isInert_append_cons bracket.2 (by decide)]
  simp [inert]

theorem separates_wrap {path content : Text} (clean : '@' ∉ path) (inert : isInert none content) :
    Separates (wrap path content) := by
  have ends (c : Char) (newline : (c = '\n' || c = '\r') = true) : ¬ isTokenChar c ∧ c ≠ '@' := by
    rcases Bool.or_eq_true_iff.mp newline with same | same
    · exact of_decide_eq_true same ▸ by decide
    · exact of_decide_eq_true same ▸ by decide
  have apart : ¬ isTokenChar '\n' ∧ '\n' ≠ '@' := by decide
  let trimmed := Text.dropEndWhile (fun c => c = '\n' || c = '\r') content
  have split : wrap path content = ['<'] ++ (name ++ [' '] ++ pathAttribute ++ path ++ ['"', '>'] ++
      '\n' :: (trimmed ++ '\n' :: (['<', '/'] ++ name))) ++ ['>'] := by
    simp [wrap, trimmed]
  rw [split]
  refine separates_of_brackets ((isInert_append_cons apart.1 apart.2).mpr ⟨isInert_of_not_mem ?_, ?_⟩)
  · simp [name, pathAttribute, clean]
  · refine (isInert_append_cons apart.1 apart.2).mpr ⟨?_, by decide⟩
    exact isInert_of_follows (fun _ => rfl) (isInert_dropEndWhile ends inert)

theorem separates_stubFor {path : Text} (clean : '@' ∉ path) : Separates (stubFor path) := by
  have split : stubFor path = ['<'] ++
      (name ++ [' '] ++ pathAttribute ++ path ++ ['"', ' ', '/']) ++ ['>'] := by
    simp [stubFor]
  rw [split]
  refine separates_of_brackets (isInert_of_not_mem ?_)
  simp [name, pathAttribute, clean]

end WrapperTag

end Transclusion
