import Transclusion.Heading

namespace Transclusion

/-- A text with renumbered headings, and how many of them would have left the range of levels. -/
structure HeadingShift where
  content : Text
  clamped : Nat
deriving DecidableEq, Repr

namespace HeadingShift

/-- The nearest level to `level + shift`. -/
def clampLevel (level : Nat) (shift : Int) : Nat :=
  (min (Heading.maxLevel : Int) (max (Heading.minLevel : Int) (level + shift))).toNat

def leavesRange (level : Nat) (shift : Int) : Bool := (clampLevel level shift : Int) ≠ level + shift

/-- Renumbers consecutive lines, the first of which has the given offset, and counts the levels
that were clamped. Lines that are no headings, or start in `excluded`, stay as they are. -/
def shiftLines (excluded : SpanSet) (shift : Int) (offset : Nat) : List Text → List Text × Nat
  | [] => ([], 0)
  | line :: more =>
    let (later, clamped) := shiftLines excluded shift (offset + line.size + 1) more
    match Heading.ofLine? line with
    | some (level, rest) =>
      if excluded.contains offset then (line :: later, clamped)
      else
        ((List.replicate (clampLevel level shift) '#' ++ rest) :: later,
          clamped + if leavesRange level shift then 1 else 0)
    | none => (line :: later, clamped)

/-- Adds `shift` to every heading's level. Only the marks of headings change, so every other byte
keeps its place in the order. -/
def adjust (t : Text) (shift : Int) (exceptWrapped : Bool) : HeadingShift :=
  let (lines, clamped) := shiftLines (Heading.excludedSpans t exceptWrapped) shift 0 t.lines
  ⟨['\n'].intercalate lines, clamped⟩

/-- Shifts all headings by the same amount, so that the first one lands on `target`. -/
def toLevel (t : Text) (target : Nat) (exceptWrapped : Bool) : HeadingShift :=
  match Heading.extract t exceptWrapped with
  | first :: _ => adjust t (target - first.level) exceptWrapped
  | [] => ⟨t, 0⟩

/-- Renumbers the headings of a document that is inlined under a heading of level `context`. -/
def under (t : Text) (mode : HeadingMode) (context : Nat) : HeadingShift :=
  match mode with
  | .normalize => toLevel t (context + 1) false
  | .additive => adjust t context false

end HeadingShift

end Transclusion
