import Transclusion.Text.Blank

namespace Transclusion

/-- A document cut at its front matter: the line that opens the block, the lines between, the line
that closes it and the rest. Together they are the document. -/
structure FrontMatter where
  opening : Text
  raw : Text
  closing : Text
  body : Text
deriving DecidableEq, Repr

namespace FrontMatter

/-- A line of three dashes; carriage returns before the newline do not count. -/
def isFence (line : Text) : Bool :=
  let visible := if line.getLast? = some '\n' then line.dropLast else line
  Text.trimReturns visible = ['-', '-', '-']

/-- The block at the very start of a document. Its opening line must end in a newline, the closing
one may be the unterminated last line. -/
def split? (t : Text) : Option FrontMatter :=
  match t.linesInclusive with
  | [] => none
  | opening :: lines =>
    if isFence opening && opening.getLast? = some '\n' then
      match lines.dropWhile (!isFence ·) with
      | closing :: body => some ⟨opening, (lines.takeWhile (!isFence ·)).flatten, closing, body.flatten⟩
      | [] => none
    else none

/-- The document without its front matter. -/
def strip (t : Text) : Text :=
  match split? t with
  | some matter => matter.body
  | none => t

/-- Bytes that the block takes. -/
def size (matter : FrontMatter) : Nat := matter.opening.size + matter.raw.size + matter.closing.size

/-- Bytes of front matter at the start of the document, 0 without any. -/
def sizeIn (t : Text) : Nat :=
  match split? t with
  | some matter => matter.size
  | none => 0

/-- The metadata proper. A line of dashes followed by blanks ends it early, although it does not
close the block. -/
def metadata (matter : FrontMatter) : Text :=
  let lines := matter.raw.linesInclusive.map fun line =>
    let visible := if line.getLast? = some '\n' then line.dropLast else line
    if visible.getLast? = some '\r' then visible.dropLast else visible
  Text.trim (['\n'].intercalate (lines.takeWhile fun line => Text.trimEnd line ≠ ['-', '-', '-']))

end FrontMatter

end Transclusion
