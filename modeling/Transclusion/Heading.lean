import Transclusion.CodeSpan
import Transclusion.Reference
import Transclusion.Wrapper

namespace Transclusion

/-- A heading line: one to six `#` and a blank. `offset` is that of the first `#`, `line` counts
from zero, `text` has neither the opening nor any closing marks. -/
structure Heading where
  level : Nat
  offset : Nat
  line : Nat
  text : Text
deriving DecidableEq, Repr

/-- How the headings of an inlined document are renumbered: its first heading goes one level below
the heading it is inlined under, or that heading's level is added to all of them. -/
inductive HeadingMode
  | normalize
  | additive
deriving DecidableEq, Repr

namespace Heading

def minLevel : Nat := 1

def maxLevel : Nat := 6

def ofLine? (line : Text) : Option (Nat × Text) :=
  let rest := line.dropWhile (· = '#')
  let level := line.length - rest.length
  match rest with
  | c :: _ =>
    if minLevel ≤ level && level ≤ maxLevel && (c = ' ' || c = '\t') then some (level, rest) else none
  | [] => none

/-- The text of a heading without the blanks around it and the marks that may close it. -/
def title (rest : Text) : Text := Text.trimEnd (Text.dropEndWhile (· = '#') rest.trim)

/-- The headings of consecutive lines, the first of which has the given offset and number, less
those that start in `excluded`. -/
def ofLines (excluded : SpanSet) (offset number : Nat) : List Text → List Heading
  | [] => []
  | line :: more =>
    let later := ofLines excluded (offset + line.size + 1) (number + 1) more
    match ofLine? line with
    | some (level, rest) =>
      if excluded.contains offset then later else ⟨level, offset, number, title rest⟩ :: later
    | none => later

/-- Where no headings are looked for: code and, on demand, blocks inlined earlier. -/
def excludedSpans (t : Text) (exceptWrapped : Bool) : SpanSet :=
  if exceptWrapped then (codeSpans t).union (wrapperSpans t) else codeSpans t

def extract (t : Text) (exceptWrapped : Bool) : List Heading :=
  ofLines (excludedSpans t exceptWrapped) 0 0 t.lines

/-- The level of the last of the ascending headings that starts before `offset`, or 0. -/
def contextLevel (headings : List Heading) (offset : Nat) : Nat :=
  match (headings.filter (·.offset < offset)).getLast? with
  | some heading => heading.level
  | none => 0

end Heading

end Transclusion
