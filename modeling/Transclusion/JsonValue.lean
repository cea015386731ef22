import Transclusion.Decimal.Shortest
import Transclusion.Text.Basic

namespace Transclusion

/-- A value as programs exchange it. The members of an object are written in the order they are in. -/
inductive JsonValue
  | null
  | bool (b : Bool)
  | int (i : Int)
  | number (x : Binary64)
  | string (t : Text)
  | array (items : List JsonValue)
  | object (members : List (Text × JsonValue))
deriving Repr

namespace JsonValue

/-- Numbers are positional from 1e-5 up to 1e16, and of two equally near decimals the even one is
written. -/
def numberLayout : DecimalLayout := ⟨-5, 16, .even⟩

/-- A character within quotes. Control characters other than the five that have a name are written as
their number. -/
def escape (c : Char) : Text :=
  match c with
  | '"' => ['\\', '"']
  | '\\' => ['\\', '\\']
  | '\x08' => ['\\', 'b']
  | '\x0c' => ['\\', 'f']
  | '\n' => ['\\', 'n']
  | '\r' => ['\\', 'r']
  | '\t' => ['\\', 't']
  | c =>
    if c.toNat < 32 then
      ['\\', 'u', '0', '0', Nat.digitChar (c.toNat / 16), Nat.digitChar (c.toNat % 16)]
    else [c]

def quoted (t : Text) : Text := '"' :: t.flatMap escape ++ ['"']

def newline (depth : Nat) : Text := '\n' :: List.replicate (2 * depth) ' '

mutual

/-- The text of a value whose lines, but for the first, are indented by `depth` steps. An infinity has
no text and becomes null. -/
def textAt (depth : Nat) : JsonValue → Text
  | null => "null".toList
  | bool b => (toString b).toList
  | int i => (toString i).toList
  | number x => ((numberLayout.number? x).getD "null").toList
  | string t => quoted t
  | array items =>
    if items.isEmpty then ['[', ']'] else '[' :: itemsAt (depth + 1) items ++ newline depth ++ [']']
  | object members =>
    if members.isEmpty then ['\x7b', '\x7d']
    else '\x7b' :: membersAt (depth + 1) members ++ newline depth ++ ['\x7d']

def itemsAt (depth : Nat) : List JsonValue → Text
  | [] => []
  | v :: rest =>
    newline depth ++ textAt depth v ++ (if rest.isEmpty then [] else [',']) ++ itemsAt depth rest

def membersAt (depth : Nat) : List (Text × JsonValue) → Text
  | [] => []
  | (name, v) :: rest =>
    newline depth ++ quoted name ++ [':', ' '] ++ textAt depth v ++ (if rest.isEmpty then [] else [',']) ++
      membersAt depth rest

end

/-- One item or member a line, each level indented by two blanks. -/
def text (v : JsonValue) : Text := textAt 0 v

end JsonValue

end Transclusion
