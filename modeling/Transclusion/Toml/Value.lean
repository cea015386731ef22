import Transclusion.Decimal.Numeral

namespace Transclusion

/-- A value of a configuration text. Other kinds of values, such as dates, have no use in one. -/
inductive Toml
  | string (t : Text)
  | int (i : Int)
  | bool (b : Bool)
  | array (items : List Toml)
  | table (entries : List (Text × Toml))
deriving Repr, Inhabited

namespace Toml

def isGap (c : Char) : Bool := c = ' ' || c = '\t'

/-- Control characters other than the tab stand nowhere in a text but in line ends. -/
def isControl (c : Char) : Bool := c.toNat < 32 && c ≠ '\t' || c.toNat = 127

def isBareKey (c : Char) : Bool := c.isAlphanum || c = '_' || c = '-'

def skipGaps (t : Text) : Text := t.dropWhile isGap

def newline? : Text → Option Text
  | '\n' :: t => some t
  | '\r' :: '\n' :: t => some t
  | _ => none

def skipComment? : Text → Option Text
  | '#' :: t =>
    let behind := t.dropWhile (!isControl ·)
    if behind.isEmpty || (newline? behind).isSome then some behind else none
  | t => some t

def skipLines? : Nat → Text → Option Text
  | 0, _ => none
  | fuel + 1, t => do
    let behind ← skipComment? (skipGaps t)
    match newline? behind with
    | some rest => skipLines? fuel rest
    | none => return behind

def escape? (code : Char) (t : Text) : Option (Char × Text) :=
  let hex (length : Nat) : Option (Char × Text) := do
    guard (length ≤ t.length)
    let n ← Numeral.natural? 16 (t.take length)
    if h : n.isValidChar then return (Char.ofNatAux n h, t.drop length) else none
  match code with
  | 'b' => some ('\x08', t)
  | 't' => some ('\t', t)
  | 'n' => some ('\n', t)
  | 'f' => some ('\x0c', t)
  | 'r' => some ('\r', t)
  | 'e' => some ('\x1b', t)
  | '"' => some ('"', t)
  | '\\' => some ('\\', t)
  | 'x' => hex 2
  | 'u' => hex 4
  | 'U' => hex 8
  | _ => none

/-- A string on one line behind its opening quote. Only double quotes admit escapes. -/
def line? (quote : Char) : Nat → Text → Option (Text × Text)
  | 0, _ => none
  | _ + 1, [] => none
  | fuel + 1, c :: t =>
    if c = quote then some ([], t)
    else if c = '\\' && quote = '"' then
      match t with
      | [] => none
      | code :: t => do
        let (meant, t) ← escape? code t
        let (rest, t) ← line? quote fuel t
        return (meant :: rest, t)
    else if isControl c then none
    else do
      let (rest, t) ← line? quote fuel t
      return (c :: rest, t)

/-- A string over several lines behind its opening quotes. Up to two quotes may stand before the
three that close it. A backslash at the end of a line hides all blanks and line ends behind it. -/
def lines? (quote : Char) : Nat → Text → Option (Text × Text)
  | 0, _ => none
  | _ + 1, [] => none
  | fuel + 1, c :: t =>
    let more (c : Char) (t : Text) : Option (Text × Text) := do
      let (rest, t) ← lines? quote fuel t
      return (c :: rest, t)
    if c = quote then
      let quotes := (c :: t).takeWhile (· = quote)
      if 3 ≤ quotes.length then
        let inner := min (quotes.length - 3) 2
        some (List.replicate inner quote, (c :: t).drop (inner + 3))
      else more c t
    else if c = '\\' && quote = '"' then
      match newline? (skipGaps t) with
      | some behind => lines? quote fuel (behind.dropWhile fun c => isGap c || c = '\n' || c = '\r')
      | none =>
        match t with
        | [] => none
        | code :: t => do
          let (meant, t) ← escape? code t
          more meant t
    else match newline? (c :: t) with
      | some behind => more '\n' behind
      | none => if isControl c then none else more c t

/-- A string and what follows it. A line end right behind three quotes does not count. -/
def string? : Text → Option (Text × Text)
  | '"' :: '"' :: '"' :: t => lines? '"' (t.length + 1) ((newline? t).getD t)
  | '\'' :: '\'' :: '\'' :: t => lines? '\'' (t.length + 1) ((newline? t).getD t)
  | '"' :: t => line? '"' (t.length + 1) t
  | '\'' :: t => line? '\'' (t.length + 1) t
  | _ => none

/-- Digits with single underscores between them. -/
def digits? (base : Nat) (t : Text) : Option Nat :=
  let groups := t.splitOn '_'
  if groups.any (·.isEmpty) then none else Numeral.natural? base groups.flatten

def int? : Text → Option Int
  | '0' :: 'x' :: t => (digits? 16 t).map Int.ofNat
  | '0' :: 'o' :: t => (digits? 8 t).map Int.ofNat
  | '0' :: 'b' :: t => (digits? 2 t).map Int.ofNat
  | t => do
    let (negative, digits) := Numeral.sign t
    guard (digits.head? ≠ some '0' || digits.length = 1)
    let n ← digits? 10 digits
    return if negative then -n else n

def keyPart? (t : Text) : Option (Text × Text) :=
  match t with
  | '"' :: rest => line? '"' (rest.length + 1) rest
  | '\'' :: rest => line? '\'' (rest.length + 1) rest
  | _ =>
    let part := t.takeWhile isBareKey
    if part.isEmpty then none else some (part, t.drop part.length)

/-- A key with its parts, and what follows it and the blanks behind it. -/
def key? : Nat → Text → Option (List Text × Text)
  | 0, _ => none
  | fuel + 1, t => do
    let (part, t) ← keyPart? t
    match skipGaps t with
    | '.' :: t =>
      let (parts, t) ← key? fuel (skipGaps t)
      return (part :: parts, t)
    | t => return ([part], t)

/-- How a table came about: a header names it, a header names one below it, or a dotted key does. -/
inductive Origin
  | header
  | implied
  | dotted
deriving DecidableEq, Repr

/-- A table while its parts come together. -/
inductive Draft
  | value (v : Toml)
  | table (origin : Origin) (entries : List (Text × Draft))
deriving Inhabited

/-- The entries with the one of the given name changed, or added when there is none. -/
def alter? (name : Text) (change : Option Draft → Option Draft) :
    List (Text × Draft) → Option (List (Text × Draft))
  | [] => do return [(name, ← change none)]
  | (other, old) :: rest =>
    if other = name then do return (other, ← change (some old)) :: rest
    else do return (other, old) :: (← alter? name change rest)

/-- Sets a value under a dotted key. Only tables that dotted keys made can be gone through. -/
def assign? (v : Toml) : List Text → List (Text × Draft) → Option (List (Text × Draft))
  | [], _ => none
  | [name], entries => alter? name (fun old => if old.isSome then none else some (.value v)) entries
  | name :: rest, entries =>
    alter? name (fun old =>
      match old with
      | none => (assign? v rest []).map (.table .dotted)
      | some (.table .dotted inner) => (assign? v rest inner).map (.table .dotted)
      | some _ => none) entries

/-- Declares the table that a header names. -/
def declare? : List Text → List (Text × Draft) → Option (List (Text × Draft))
  | [], _ => none
  | [name], entries =>
    alter? name (fun old =>
      match old with
      | none => some (.table .header [])
      | some (.table .implied inner) => some (.table .header inner)
      | some _ => none) entries
  | name :: rest, entries =>
    alter? name (fun old =>
      match old with
      | none => (declare? rest []).map (.table .implied)
      | some (.table origin inner) => (declare? rest inner).map (.table origin)
      | some (.value _) => none) entries

/-- Changes the table at the end of a path of tables. -/
def within? (change : List (Text × Draft) → Option (List (Text × Draft))) :
    List Text → List (Text × Draft) → Option (List (Text × Draft))
  | [], entries => change entries
  | name :: rest, entries =>
    alter? name (fun old =>
      match old with
      | some (.table origin inner) => (within? change rest inner).map (.table origin)
      | _ => none) entries

mutual

def ofDraft : Draft → Toml
  | .value v => v
  | .table _ entries => table (ofDrafts entries)

def ofDrafts : List (Text × Draft) → List (Text × Toml)
  | [] => []
  | (name, draft) :: rest => (name, ofDraft draft) :: ofDrafts rest

end

mutual

def value? : Nat → Text → Option (Toml × Text)
  | 0, _ => none
  | fuel + 1, t =>
    match t with
    | '[' :: t => do
      let (items, t) ← items? fuel (← skipLines? (t.length + 1) t)
      return (array items, t)
    | '\x7b' :: t => do
      let (entries, t) ← entries? fuel [] (← skipLines? (t.length + 1) t)
      return (table (ofDrafts entries), t)
    | '"' :: _ => (string? t).map fun (s, t) => (string s, t)
    | '\'' :: _ => (string? t).map fun (s, t) => (string s, t)
    | _ => do
      let word := t.takeWhile fun c => isBareKey c || c = '+' || c = '.' || c = ':'
      let v ← if word = "true".toList then pure (bool true)
        else if word = "false".toList then pure (bool false)
        else (int? word).map int
      return (v, t.drop word.length)

def items? : Nat → Text → Option (List Toml × Text)
  | 0, _ => none
  | fuel + 1, t =>
    match t with
    | ']' :: t => some ([], t)
    | _ => do
      let (item, t) ← value? fuel t
      match ← skipLines? (t.length + 1) t with
      | ',' :: t =>
        let (items, t) ← items? fuel (← skipLines? (t.length + 1) t)
        return (item :: items, t)
      | ']' :: t => return ([item], t)
      | _ => none

/-- The rest of a table within braces. As in an array, a comma may stand behind the last entry. -/
def entries? : Nat → List (Text × Draft) → Text → Option (List (Text × Draft) × Text)
  | 0, _, _ => none
  | fuel + 1, done, t =>
    match t with
    | '\x7d' :: t => some (done, t)
    | _ => do
      let (name, t) ← key? (t.length + 1) t
      match t with
      | '=' :: t =>
        let (v, t) ← value? fuel (skipGaps t)
        let done ← assign? v name done
        match ← skipLines? (t.length + 1) t with
        | ',' :: t => entries? fuel done (← skipLines? (t.length + 1) t)
        | '\x7d' :: t => return (done, t)
        | _ => none
      | _ => none

end

/-- Reads line after line. `current` is the table that the last header named. Headers in double
brackets are refused, as nothing is configured by a list of tables. -/
def statements? : Nat → List Text → List (Text × Draft) → Text → Option (List (Text × Draft))
  | 0, _, _, _ => none
  | fuel + 1, current, done, t => do
    let lineEnd? (t : Text) : Option Text := do
      let behind ← skipComment? (skipGaps t)
      if behind.isEmpty then return [] else newline? behind
    match ← skipLines? (t.length + 1) t with
    | [] => return done
    | '[' :: t =>
      let (name, t) ← key? (t.length + 1) (skipGaps t)
      match t with
      | ']' :: t => statements? fuel name (← declare? name done) (← lineEnd? t)
      | _ => none
    | t =>
      let (name, t) ← key? (t.length + 1) t
      match t with
      | '=' :: t =>
        let t := skipGaps t
        let (v, t) ← value? (t.length + 1) t
        statements? fuel current (← within? (assign? v name) current done) (← lineEnd? t)
      | _ => none

/-- The entries of a whole text, perhaps with a byte order mark at its start. -/
def parse? (t : Text) : Option (List (Text × Toml)) :=
  let t := if t.head? = some '\ufeff' then t.drop 1 else t
  (statements? (t.length + 1) [] [] t).map ofDrafts

end Toml

end Transclusion
