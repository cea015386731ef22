import Transclusion.CodeSpan
import Transclusion.Text.Blank
import Transclusion.Text.Word

namespace Transclusion

/-- One mention `@target` in a document, at byte `start`. The line and the column, which counts
characters, are those of the `@`. -/
structure Reference where
  target : Text
  start : Nat
  line : Nat
  column : Nat
deriving DecidableEq, Repr

/-- A place between two characters of a text. -/
structure Place where
  offset : Nat
  line : Nat
  column : Nat
deriving DecidableEq, Repr

namespace Place

/-- The beginning of a text whose lines and columns are counted from `first`. -/
def origin (first : Nat) : Place := ⟨0, first, first⟩

def advance (first : Nat) (p : Place) (c : Char) : Place :=
  if c = '\n' then ⟨p.offset + c.utf8Size, p.line + 1, first⟩
  else ⟨p.offset + c.utf8Size, p.line, p.column + 1⟩

@[simp]
theorem offset_advance (first : Nat) (p : Place) (c : Char) :
    (p.advance first c).offset = p.offset + c.utf8Size := by
  unfold advance
  split <;> rfl

end Place

namespace Reference

def raw (r : Reference) : Text := '@' :: r.target

/-- One past the last byte of the mention. -/
def stop (r : Reference) : Nat := r.start + r.raw.size

def isTokenChar (c : Char) : Bool := isWord c || c = '-' || c = '.' || c = '/'

/-- What may stand before the `@`: nothing, a blank or an opening bracket. After a word character
the `@` belongs to an address of some other kind. -/
def mayFollow : Option Char → Bool
  | none => true
  | some c => isBlank c || c = '(' || c = '[' || c = '\x7b'

/-- The text ends in a dot and at least one ASCII letter or digit. -/
def hasExtension (t : Text) : Bool :=
  let ending := t.reverse.takeWhile Char.isAlphanum
  !ending.isEmpty && (t.reverse.drop ending.length).head? = some '.'

def isPathLike (t : Text) : Bool := t.contains '/' || hasExtension t

/-- The longest token the text begins with, without the dots at its end: those close a sentence. -/
def token (t : Text) : Text := Text.dropEndWhile (· = '.') (t.takeWhile isTokenChar)

/-- The references from `place` on, where `before` is the character in front of it. -/
def scan (code : SpanSet) (first : Nat) (place : Place) (before : Option Char) : Text → List Reference
  | [] => []
  | c :: t =>
    let later := scan code first (place.advance first c) (some c) t
    if c = '@' && mayFollow before && !code.contains place.offset && isPathLike (token t) then
      ⟨token t, place.offset, place.line, place.column⟩ :: later
    else later

/-- Every reference outside code, in ascending order. -/
def extract (t : Text) (oneBased : Bool) : List Reference :=
  let first := if oneBased then 1 else 0
  scan (codeSpans t) first (.origin first) none t

end Reference

end Transclusion
