import Mathlib.Data.List.DropRight
import Mathlib.Data.List.Pairwise
import Transclusion.Proofs.TagDepth

namespace Transclusion

open WrapperTag

namespace Text

/-- What is dropped at the end does not reach over a character that is kept. -/
theorem dropEndWhile_append_of_last {p : Char → Bool} {c : Char} (stays : p c = false) (t u : Text) :
    dropEndWhile p (t ++ [c] ++ u) = t ++ [c] ++ dropEndWhile p u := by
  have last : dropEndWhile p [c] = [c] := by
    rw [show dropEndWhile p [c] = _ from List.rdropWhile_singleton p c, stays, if_neg Bool.false_ne_true]
  rw [dropEndWhile_append]
  split
  · rename_i none
    rw [none, List.append_nil, dropEndWhile_append, last, if_neg (List.cons_ne_nil c [])]
  · rfl

theorem dropEndWhile_false (t : Text) : dropEndWhile (fun _ => false) t = t :=
  List.rdropWhile_eq_self_iff.mpr fun _ => Bool.false_ne_true

end Text

/-- What a compiled document is made of: text without a tag in it, inlined documents with what they
are made of, and stubs. A path that stands in a tag has no quote in it. -/
inductive Forest
  | nil
  | plain (t : Text) (clean : '<' ∉ t) (rest : Forest)
  | wrapped (path : Text) (unquoted : '"' ∉ path) (inner rest : Forest)
  | stub (path : Text) (unquoted : '"' ∉ path) (rest : Forest)

/-- The kinds of pieces that a forest consists of. -/
inductive Piece
  | plain
  | wrapped
  | stub
deriving DecidableEq

namespace Forest

def render : Forest → Text
  | nil => []
  | plain t _ rest => t ++ rest.render
  | wrapped path _ inner rest => wrap path inner.render ++ rest.render
  | stub path _ rest => stubFor path ++ rest.render

/-- The pieces of a forest, but not those inside of others, each with the bytes that it takes when
the first one begins at `offset`. -/
def layout (offset : Nat) : Forest → List (Piece × Span)
  | nil => []
  | plain t _ rest => (.plain, ⟨offset, offset + t.size⟩) :: rest.layout (offset + t.size)
  | wrapped path _ inner rest =>
    (.wrapped, ⟨offset, offset + (wrap path inner.render).size⟩) ::
      rest.layout (offset + (wrap path inner.render).size)
  | stub path _ rest =>
    (.stub, ⟨offset, offset + (stubFor path).size⟩) :: rest.layout (offset + (stubFor path).size)

/-- Whether a byte lies in one of the inlined documents. -/
def covers (f : Forest) (offset byte : Nat) : Bool :=
  (f.layout offset).any fun piece => piece.1 = .wrapped && piece.2.contains byte

theorem covers_plain {t : Text} (clean : '<' ∉ t) (rest : Forest) (offset byte : Nat) :
    (plain t clean rest).covers offset byte = rest.covers (offset + t.size) byte := by
  simp [covers, layout]

theorem covers_wrapped {path : Text} (unquoted : '"' ∉ path) (inner rest : Forest) (offset byte : Nat) :
    (wrapped path unquoted inner rest).covers offset byte =
      ((⟨offset, offset + (wrap path inner.render).size⟩ : Span).contains byte ||
        rest.covers (offset + (wrap path inner.render).size) byte) := by
  simp [covers, layout]

theorem covers_stub {path : Text} (unquoted : '"' ∉ path) (rest : Forest) (offset byte : Nat) :
    (stub path unquoted rest).covers offset byte = rest.covers (offset + (stubFor path).size) byte := by
  simp [covers, layout]

theorem covers_iff {f : Forest} {offset byte : Nat} :
    f.covers offset byte ↔ ∃ s, (.wrapped, s) ∈ f.layout offset ∧ s.contains byte := by
  simp [covers]

/-- A rendered forest without the characters at its end that `p` holds of. An inlined document is
rendered like that, so what is said of rendered forests is said of these. -/
def cut (p : Char → Bool) (f : Forest) : Text := Text.dropEndWhile p f.render

section Cut

variable {p : Char → Bool}

theorem cut_plain {t : Text} (clean : '<' ∉ t) (rest : Forest) :
    (plain t clean rest).cut p = if rest.cut p = [] then Text.dropEndWhile p t else t ++ rest.cut p :=
  Text.dropEndWhile_append ..

variable (stays : p '>' = false) {path : Text} (unquoted : '"' ∉ path)

include stays

theorem cut_wrapped (inner rest : Forest) :
    (wrapped path unquoted inner rest).cut p = wrap path inner.render ++ rest.cut p := by
  obtain ⟨inside, brackets⟩ := exists_wrap path inner.render
  rw [cut, render, brackets, ← List.cons_append]
  exact Text.dropEndWhile_append_of_last stays ..

theorem cut_stub (rest : Forest) : (stub path unquoted rest).cut p = stubFor path ++ rest.cut p := by
  obtain ⟨inside, brackets⟩ := exists_spell path .stub
  rw [cut, render, show stubFor path = '<' :: (inside ++ ['>']) from brackets, ← List.cons_append]
  exact Text.dropEndWhile_append_of_last stays ..

omit unquoted in
/-- No inlined document is among the characters that are cut off. -/
theorem bounds_of_covers {f : Forest} {offset byte : Nat} (covered : f.covers offset byte) :
    offset ≤ byte ∧ byte < offset + (f.cut p).size := by
  induction f generalizing offset with
  | nil => cases covered
  | plain t clean rest ih =>
    rw [covers_plain] at covered
    obtain ⟨low, high⟩ := ih covered
    rw [cut_plain]
    split
    · rename_i none
      rw [none] at high
      exact absurd low (Nat.not_le_of_lt high)
    · rw [Text.size_append]
      omega
  | wrapped path unquoted inner rest _ ih =>
    rw [covers_wrapped, Bool.or_eq_true] at covered
    rw [cut_wrapped stays, Text.size_append]
    rcases covered with here | later
    · have inside := Span.contains_iff.mp here
      dsimp only at inside
      omega
    · have inside := ih later
      omega
  | stub path unquoted rest ih =>
    rw [covers_stub] at covered
    have inside := ih covered
    rw [cut_stub stays, Text.size_append]
    omega

end Cut

/-- The line breaks that are not kept at the end of an inlined document. -/
def newline (c : Char) : Bool := c = '\n' || c = '\r'

theorem newline_bracket : newline '>' = false := rfl

theorem wrap_render (path : Text) (f : Forest) :
    wrap path f.render = opening.spell path ++ '\n' :: (f.cut newline ++ '\n' :: closing.spell path) :=
  wrap_eq path f.render

theorem size_wrap (path : Text) (f : Forest) : (wrap path f.render).size =
    (opening.spell path).size + 1 + (f.cut newline).size + 1 + (closing.spell path).size := by
  rw [wrap_render]
  simp only [Text.size_append, Text.size, show '\n'.utf8Size = 1 from rfl]
  omega

theorem scan_wrap {path : Text} (unquoted : '"' ∉ path) (f : Forest) (offset : Nat) (t : Text) :
    scan offset 0 (wrap path f.render ++ t) = (opening, ⟨offset, offset + (opening.spell path).size⟩) ::
      scan (offset + (opening.spell path).size + 1) 0 (f.cut newline ++ '\n' ::
        (closing.spell path ++ t)) := by
  rw [wrap_render]
  simp only [List.append_assoc, List.cons_append]
  rw [scan_spell unquoted, scan_cons (by decide), show '\n'.utf8Size = 1 from rfl]

theorem scan_stub {path : Text} (unquoted : '"' ∉ path) (offset : Nat) (t : Text) :
    scan offset 0 (stubFor path ++ t) =
      (.stub, ⟨offset, offset + (stubFor path).size⟩) :: scan (offset + (stubFor path).size) 0 t :=
  scan_spell unquoted .stub offset t

theorem scan_closing {path : Text} (unquoted : '"' ∉ path) (offset : Nat) (t : Text) :
    scan offset 0 ('\n' :: (closing.spell path ++ t)) =
      (closing, ⟨offset + 1, offset + 1 + (closing.spell path).size⟩) ::
        scan (offset + 1 + (closing.spell path).size) 0 t := by
  rw [scan_cons (by decide), scan_spell unquoted, show '\n'.utf8Size = 1 from rfl]

/-- The blocks that the tags of a forest delimit are inlined documents, and those that are inlined
outermost cover all others. What is open in front of the forest is open behind it. -/
theorem any_blocks_cut {p : Char → Bool} (stays : p '>' = false) (f : Forest)
    (stop offset byte : Nat) (opened : List Nat) (t : Text) :
    (blocks stop opened (scan offset 0 (f.cut p ++ t))).any (·.contains byte) =
      (f.covers offset byte || (blocks stop opened (scan (offset + (f.cut p).size) 0 t)).any
        (·.contains byte)) := by
  induction f generalizing p offset opened t with
  | nil => rfl
  | plain u clean rest ih =>
    rw [cut_plain, covers_plain]
    split
    · rename_i none
      have dropped : '<' ∉ Text.dropEndWhile p u :=
        fun member => clean ((List.rdropWhile_prefix p u).subset member)
      have bare : rest.covers (offset + u.size) byte = false := by
        rw [Bool.eq_false_iff]
        intro covered
        have inside := bounds_of_covers stays covered
        rw [none] at inside
        exact absurd inside.1 (Nat.not_le_of_lt inside.2)
      rw [scan_append_of_not_mem dropped, bare, Bool.false_or]
    · rw [List.append_assoc, scan_append_of_not_mem clean, ih stays, Text.size_append, Nat.add_assoc]
  | wrapped path unquoted inner rest ihInner ih =>
    -- The tag behind the inner forest closes the block that begins at `offset`, which covers what
    -- the inner forest does.
    have absorbed : inner.covers (offset + (opening.spell path).size + 1) byte →
        (⟨offset, offset + (wrap path inner.render).size⟩ : Span).contains byte := by
      intro covered
      have inside := bounds_of_covers newline_bracket covered
      rw [Span.contains_iff, size_wrap]
      dsimp only
      omega
    have ends : offset + (opening.spell path).size + 1 + (inner.cut newline).size + 1 +
        (closing.spell path).size =
        offset + (wrap path inner.render).size := by
      rw [size_wrap]
      omega
    rw [cut_wrapped stays, List.append_assoc, scan_wrap unquoted, blocks, ihInner newline_bracket,
      scan_closing unquoted,
      blocks, List.any_cons, ends, ih stays, covers_wrapped, Text.size_append,
      Nat.add_assoc offset (wrap path inner.render).size, ← Bool.or_assoc, ← Bool.or_assoc]
    dsimp only
    rw [Bool.or_eq_right_iff_imp.mpr absorbed]
  | stub path unquoted rest ih =>
    rw [cut_stub stays, List.append_assoc, scan_stub unquoted, blocks, ih stays, covers_stub,
      Text.size_append, Nat.add_assoc]

theorem le_start_of_mem {f : Forest} {offset : Nat} {piece : Piece × Span}
    (member : piece ∈ f.layout offset) :
    offset ≤ piece.2.start := by
  induction f generalizing offset with
  | nil => cases member
  | plain t clean rest ih | stub path unquoted rest ih | wrapped path unquoted inner rest _ ih =>
    rcases List.mem_cons.mp member with rfl | later
    · exact Nat.le_refl offset
    · exact Nat.le_trans (Nat.le_add_right ..) (ih later)

/-- The pieces of a forest stand one behind the other. -/
theorem layout_ordered (f : Forest) (offset : Nat) :
    (f.layout offset).Pairwise fun x y => x.2.stop ≤ y.2.start := by
  induction f generalizing offset with
  | nil => exact List.Pairwise.nil
  | plain t clean rest ih | stub path unquoted rest ih | wrapped path unquoted inner rest _ ih =>
    exact List.pairwise_cons.mpr ⟨fun piece later => le_start_of_mem later, ih _⟩

/-- A byte lies in at most one of the pieces. -/
theorem eq_of_contains {f : Forest} {offset byte : Nat} {x y : Piece × Span}
    (first : x ∈ f.layout offset) (second : y ∈ f.layout offset) (inFirst : x.2.contains byte)
    (inSecond : y.2.contains byte) : x = y := by
  by_contra other
  let apart (x y : Piece × Span) : Prop := x.2.stop ≤ y.2.start ∨ y.2.stop ≤ x.2.start
  have : Std.Symm apart := ⟨fun _ _ => Or.symm⟩
  have ordered : (f.layout offset).Pairwise apart := (layout_ordered f offset).imp Or.inl
  have outside := ordered.forall first second other
  rw [Span.contains_iff] at inFirst inSecond
  omega

/-- Scanning the rendered forest for blocks finds the documents that are inlined outermost again. -/
theorem contains_wrapperSpans_render (f : Forest) (byte : Nat) :
    (wrapperSpans f.render).contains byte = f.covers 0 byte := by
  have whole := any_blocks_cut (p := fun _ => false) rfl f f.render.size 0 byte [] []
  rw [cut, Text.dropEndWhile_false, List.append_nil] at whole
  rw [wrapperSpans, SpanSet.contains_ofSpans, whole]
  exact Bool.or_false _

end Forest

/-- In a document that consists of plain text, inlined documents and stubs, exactly the bytes of the
outermost inlined documents are in wrapper blocks, however these documents are nested or adjoin. No
byte of a stub or of the plain text between them is. -/
theorem wrapperSpans_render (f : Forest) :
    (∀ byte, (wrapperSpans f.render).contains byte ↔ ∃ s, (.wrapped, s) ∈ f.layout 0 ∧ s.contains byte) ∧
      ∀ piece ∈ f.layout 0, ∀ byte, piece.2.contains byte →
        ((wrapperSpans f.render).contains byte ↔ piece.1 = .wrapped) := by
  refine ⟨fun byte => ?_, fun piece member byte inside => ?_⟩
  · rw [Forest.contains_wrapperSpans_render, Forest.covers_iff]
  · rw [Forest.contains_wrapperSpans_render, Forest.covers_iff]
    constructor
    · rintro ⟨s, wrapped, covered⟩
      rw [Forest.eq_of_contains member wrapped inside covered]
    · intro wrapped
      exact ⟨piece.2, wrapped ▸ member, inside⟩

-- a document within another one, a document that adjoins, and a stub
example :
    let f : Forest := .wrapped ['a'] (by decide) (.wrapped ['b'] (by decide) .nil .nil)
      (.wrapped ['c'] (by decide) .nil (.stub ['b'] (by decide) .nil))
    f.layout 0 = [(.wrapped, ⟨0, 48⟩), (.wrapped, ⟨48, 72⟩), (.stub, ⟨72, 89⟩)] ∧
      (wrapperSpans f.render).spans = [⟨0, 72⟩] := by
  decide +kernel

end Transclusion
