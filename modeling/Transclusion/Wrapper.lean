import Transclusion.Span
import Transclusion.Text.Blank

namespace Transclusion

/-- The tags that delimit inlined content: `<file path="…">`, `</file>` and, for a document that
was inlined before, `<file path="…" />`. -/
inductive WrapperTag
  | opening
  | closing
  | stub
deriving DecidableEq, Repr

namespace WrapperTag

def name : Text := ['f', 'i', 'l', 'e']

def pathAttribute : Text := ['p', 'a', 't', 'h', '=', '"']

/-- An inlined document: newlines at the end of its content are dropped, so that exactly one stands
before the closing tag. -/
def wrap (path content : Text) : Text :=
  ['<'] ++ name ++ [' '] ++ pathAttribute ++ path ++ ['"', '>', '\n'] ++
    Text.dropEndWhile (fun c => c = '\n' || c = '\r') content ++ ['\n', '<', '/'] ++ name ++ ['>']

/-- What stands for a document that is inlined elsewhere. -/
def stubFor (path : Text) : Text := ['<'] ++ name ++ [' '] ++ pathAttribute ++ path ++ ['"', ' ', '/', '>']

/-- What is left of the tag behind the attribute's closing quote: blanks, perhaps a slash, `>`. -/
def tail? (t : Text) : Option (WrapperTag × Text) :=
  match t.dropWhile isBlank with
  | '/' :: '>' :: rest => some (stub, rest)
  | '>' :: rest => some (opening, rest)
  | _ => none

/-- A tag that the text begins with, and the text behind it. -/
def atStart? (t : Text) : Option (WrapperTag × Text) :=
  match (['<', '/'] ++ name ++ ['>']).isPrefixOf? t with
  | some rest => some (closing, rest)
  | none => do
    let afterName ← ('<' :: name).isPrefixOf? t
    let attributes := afterName.dropWhile isBlank
    if attributes.length = afterName.length then none
    else
      let value ← pathAttribute.isPrefixOf? attributes
      match value.dropWhile (· ≠ '"') with
      | '"' :: behind => tail? behind
      | _ => none

/-- All tags from left to right with the spans they take; no two overlap. `skip` is how many
characters of a tag found earlier are still to be passed. -/
def scan (offset skip : Nat) : Text → List (WrapperTag × Span)
  | [] => []
  | c :: t =>
    match skip with
    | skip + 1 => scan (offset + c.utf8Size) skip t
    | 0 =>
      match atStart? (c :: t) with
      | some (tag, rest) =>
        (tag, ⟨offset, offset + Text.size (c :: t) - rest.size⟩) ::
          scan (offset + c.utf8Size) (t.length - rest.length) t
      | none => scan (offset + c.utf8Size) 0 t

/-- The blocks that the tags delimit, each closing tag paired with the latest open one. A closing
tag with nothing open is ignored, and what stays open at the end reaches to `stop`. -/
def blocks (stop : Nat) (opened : List Nat) : List (WrapperTag × Span) → List Span
  | [] => opened.map (⟨·, stop⟩)
  | (.stub, _) :: rest => blocks stop opened rest
  | (.opening, s) :: rest => blocks stop (s.start :: opened) rest
  | (.closing, s) :: rest =>
    match opened with
    | [] => blocks stop [] rest
    | start :: outer => ⟨start, s.stop⟩ :: blocks stop outer rest

end WrapperTag

/-- Content that was inlined by an earlier compilation, its tags included. -/
def wrapperSpans (t : Text) : SpanSet := .ofSpans (WrapperTag.blocks t.size [] (WrapperTag.scan 0 0 t))

end Transclusion
