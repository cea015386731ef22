import Transclusion.Text.Basic

namespace Transclusion.Yaml

/-- The tokens of a stream of documents. Block structure, which the text shows by indentation, has
tokens of its own. A scalar is `plain` when nothing quotes it. -/
inductive Token
  | versionDirective
  | tagDirective (handle uri : Text)
  | documentStart
  | documentEnd
  | blockSequenceStart
  | blockMappingStart
  | blockEnd
  | flowSequenceStart
  | flowSequenceEnd
  | flowMappingStart
  | flowMappingEnd
  | blockEntry
  | flowEntry
  | key
  | value
  | alias (name : Text)
  | anchor (name : Text)
  | tag (handle suffix : Text)
  | scalar (plain : Bool) (text : Text)
deriving DecidableEq, Repr

structure Mark where
  index : Nat
  line : Nat
  column : Nat
deriving DecidableEq, Repr

/-- A place where a key without `?` may have begun: whether it still can be one, whether it has to,
and the number of the token there. -/
structure KeyCandidate where
  possible : Bool
  required : Bool
  token : Nat
  mark : Mark

/-- An indentation to go back to, and whether leaving the present one ends a block. -/
structure Indent where
  column : Int
  endsBlock : Bool

/-- A reader in the middle of a text. `leading` says that only blanks were passed on this line.
`candidates` and `indents` are innermost first, as are `singlePairs`, which say for each open flow
sequence whether the mapping of a single pair is open in it. -/
structure Scanner where
  rest : Text
  mark : Mark
  leading : Bool
  tokens : Array Token
  keyAllowed : Bool
  candidates : List KeyCandidate
  indent : Int
  indents : List Indent
  flowLevel : Nat
  adjacentValueAt : Nat
  flowMappingStarted : Bool
  singlePairs : List Bool

/-- A step of the reader; a text that is not well formed has none. -/
abbrev Scan := StateT Scanner Option

def isBreak (c : Char) : Bool := c = '\n' || c = '\r'

def isSpace (c : Char) : Bool := c = ' ' || c = '\t'

/-- The end of the text is seen as the character 0. -/
def isEnd (c : Char) : Bool := c = '\x00'

def isBreakOrEnd (c : Char) : Bool := isBreak c || isEnd c

def isGap (c : Char) : Bool := isSpace c || isBreakOrEnd c

def isFlow (c : Char) : Bool := c = ',' || c = '[' || c = ']' || c = '\x7b' || c = '\x7d'

/-- The letters of a tag handle or a directive. -/
def isHandle (c : Char) : Bool := c.isAlphanum || c = '_' || c = '-'

/-- The letters of an anchor: all but blanks, the byte order mark and the marks of flow collections. -/
def isAnchor (c : Char) : Bool := !isGap c && c ≠ '\ufeff' && !isFlow c

def uriMarks : Text :=
  ['#', ';', '/', '?', ':', '@', '&', '=', '+', '$', ',', '_', '.', '!', '~', '*', '\'', '(', ')',
    '[', ']', '%']

def isUri (c : Char) : Bool := c.isAlphanum || c = '-' || uriMarks.contains c

def hexValue? (c : Char) : Option Nat :=
  if c.isDigit then some (c.toNat - 48)
  else if 'a' ≤ c && c ≤ 'f' then some (c.toNat - 87)
  else if 'A' ≤ c && c ≤ 'F' then some (c.toNat - 55)
  else none

def charOf? (n : Nat) : Option Char := if h : n.isValidChar then some (Char.ofNatAux n h) else none

namespace Scan

def peek (n : Nat) : Scan Char := do return (← get).rest.getD n '\x00'

def column : Scan Int := do return (← get).mark.column

def inFlow : Scan Bool := do return 0 < (← get).flowLevel

def advance (n : Nat) : Scan Unit :=
  modify fun s => { s with
    rest := s.rest.drop n
    mark := ⟨s.mark.index + n, s.mark.line, s.mark.column + n⟩ }

/-- Passes `n` characters of which at least one is no blank. -/
def take (n : Nat) : Scan Unit := do
  advance n
  modify fun s => { s with leading := false }

/-- Passes a line break, if there is one, and says whether there was. -/
def breakLine : Scan Bool := do
  let pass (n : Nat) : Scan Bool := do
    modify fun s => { s with
      rest := s.rest.drop n
      mark := ⟨s.mark.index + n, s.mark.line + 1, 0⟩
      leading := true }
    return true
  match (← get).rest with
  | '\r' :: '\n' :: _ => pass 2
  | '\r' :: _ => pass 1
  | '\n' :: _ => pass 1
  | _ => return false

def allowKey (allowed : Bool) : Scan Unit := modify fun s => { s with keyAllowed := allowed }

def push (token : Token) : Scan Unit := modify fun s => { s with tokens := s.tokens.push token }

def insertAt (n : Nat) (token : Token) : Scan Unit :=
  modify fun s => { s with tokens := s.tokens.extract 0 n ++ #[token] ++ s.tokens.extract n s.tokens.size }

/-- The longest run of characters that satisfy `p`, which holds of no line break. -/
def takeWhile (p : Char → Bool) : Scan Text := do
  let run := (← get).rest.takeWhile p
  if !run.isEmpty then take run.length
  return run

def skipComment : Scan Unit := do let _ ← takeWhile (!isBreakOrEnd ·)

/-- Passes blanks and a comment up to the end of the line, and says whether there were tabs and
whether there were spaces. A comment has to be set off by a space. -/
def skipToLineEnd (tabs : Bool) : Scan (Bool × Bool) := do
  let blanks := (← get).rest.takeWhile fun c => c = ' ' || tabs && c = '\t'
  advance blanks.length
  if (← peek 0) = '#' then
    guard (!blanks.isEmpty)
    skipComment
  return (blanks.contains '\t', blanks.contains ' ')

/-- Passes blanks, comments and line breaks. A tab does not indent a block, so a line that begins
with one too early may have nothing else on it. -/
def skipToToken : Nat → Scan Unit
  | 0 => pure ()
  | fuel + 1 => do
    let s ← get
    match s.rest with
    | '\t' :: _ =>
      if !s.indents.isEmpty && s.leading && (s.mark.column : Int) < s.indent then
        let _ ← skipToLineEnd true
        guard (isBreakOrEnd (← peek 0))
      else advance 1
      skipToToken fuel
    | ' ' :: _ =>
      advance 1
      skipToToken fuel
    | '#' :: _ =>
      skipComment
      skipToToken fuel
    | _ =>
      if ← breakLine then
        if s.flowLevel = 0 then allowKey true
        skipToToken fuel

def skipGaps : Scan Unit := do skipToToken ((← get).rest.length + 1)

/-- A key that has not been followed by `:` on its line, or within 1024 characters, is none. -/
def dropStaleKeys : Scan Unit := do
  let s ← get
  if s.flowLevel = 0 then
    let isStale (k : KeyCandidate) : Bool :=
      k.possible && (k.mark.line < s.mark.line || k.mark.index + 1024 < s.mark.index)
    guard (!s.candidates.any fun k => isStale k && k.required)
    set { s with
      candidates := s.candidates.map fun k => if isStale k then { k with possible := false } else k }

/-- Notes that a key may begin here. It has to be one where a block mapping goes on. -/
def noteKey : Scan Unit :=
  modify fun s =>
    if s.keyAllowed then
      let required := s.flowLevel = 0 && s.indent = s.mark.column &&
        (s.indents.head?.map (·.endsBlock)).getD false
      { s with candidates := ⟨true, required, s.tokens.size, s.mark⟩ :: s.candidates.tail }
    else s

/-- What began here is no key. -/
def forgetKey : Scan Unit := do
  match (← get).candidates with
  | [] => pure ()
  | k :: outer =>
    guard (!(k.possible && k.required))
    modify fun s => { s with candidates := { k with possible := false } :: outer }

def unindent (column : Int) : List Indent → Scan Unit
  | [] => pure ()
  | inner :: outer => do
    let s ← get
    if s.flowLevel = 0 && column < s.indent then
      set { s with indent := inner.column, indents := outer }
      if inner.endsBlock then push .blockEnd
      unindent column outer

def unindentTo (column : Int) : Scan Unit := do unindent column (← get).indents

/-- Begins a block at `column`, unless one is open there; its token goes in front of token `n`. -/
def indentBlock (column : Int) (n : Nat) (token : Token) : Scan Unit := do
  if ← inFlow then return
  let s ← get
  if s.indent ≤ column then
    match s.indents with
    | inner :: outer => if !inner.endsBlock then set { s with indent := inner.column, indents := outer }
    | [] => pure ()
  let s ← get
  if s.indent < column then
    set { s with indent := column, indents := ⟨s.indent, true⟩ :: s.indents }
    insertAt n token

/-- What follows in a block has to stand at least one column further right. -/
def indentOne : Scan Unit :=
  modify fun s =>
    if s.flowLevel = 0 && (s.indents.head?.map (·.endsBlock)).getD false then
      { s with indent := s.indent + 1, indents := ⟨s.indent, false⟩ :: s.indents }
    else s

/-- Takes back indentations that belong to no block. -/
def unindentOnes : Scan Unit :=
  modify fun s =>
    let extra := s.indents.takeWhile (!·.endsBlock)
    { s with
      indent := (extra.getLast?.map (·.column)).getD s.indent
      indents := s.indents.drop extra.length }

/-- Three of the same character at the start of a line and a gap: the line bounds a document. -/
def atDocumentMark (c : Char) : Scan Bool := do
  let s ← get
  return s.mark.column = 0 && s.rest.take 3 = [c, c, c] && isGap (← peek 3)

def atAnyDocumentMark : Scan Bool := do return (← atDocumentMark '-') || (← atDocumentMark '.')

/-- A character that is written as the percent signs of its bytes. The bytes are read as one number
of base 256, so only some of those with two bytes have a character. -/
def uriEscape : Scan Char := do
  let byteAt (n : Nat) : Scan Nat := do
    guard ((← peek n) = '%')
    let high ← hexValue? (← peek (n + 1))
    let low ← hexValue? (← peek (n + 2))
    return 16 * high + low
  let trail (code n : Nat) : Scan Nat := do
    let byte ← byteAt n
    guard (byte / 64 = 2)
    return 256 * code + byte
  let first ← byteAt 0
  if first < 128 then
    take 3
    charOf? first
  else
    guard (first / 32 = 6)
    let code ← trail first 3
    take 6
    charOf? code

/-- Characters of a tag, as far as `p` goes. -/
def uriText (p : Char → Bool) : Nat → Scan Text
  | 0 => return []
  | fuel + 1 => do
    let c ← peek 0
    if isEnd c || !p c then return []
    else if c = '%' then
      let decoded ← uriEscape
      return decoded :: (← uriText p fuel)
    else
      take 1
      return c :: (← uriText p fuel)

def uriWhile (p : Char → Bool) : Scan Text := do uriText p ((← get).rest.length + 1)

/-- `!`, `!!` or `!name!`; or `!name` where no directive is read. -/
def tagHandle (inDirective : Bool) : Scan Text := do
  guard ((← peek 0) = '!')
  take 1
  let name ← takeWhile isHandle
  if (← peek 0) = '!' then
    take 1
    return '!' :: name ++ ['!']
  else
    guard (!inDirective || name.isEmpty)
    return '!' :: name

def isTagChar (c : Char) : Bool := isUri c && !isFlow c && c ≠ '!'

def tag : Scan Unit := do
  let (handle, suffix) ← do
    if (← peek 1) = '<' then
      take 2
      let suffix ← uriWhile isUri
      guard ((← peek 0) = '>')
      take 1
      pure ([], suffix)
    else
      let handle ← tagHandle false
      if 2 ≤ handle.length && handle.getLast? = some '!' then
        let suffix ← uriWhile isTagChar
        guard (!suffix.isEmpty)
        pure (handle, suffix)
      else
        let suffix := handle.tail ++ (← uriWhile isTagChar)
        pure (if suffix.isEmpty then ([], ['!']) else (['!'], suffix))
  let c ← peek 0
  guard (isGap c || (← inFlow) && isFlow c)
  push (.tag handle suffix)

def anchorName : Scan Text := do
  take 1
  let name ← takeWhile isAnchor
  guard (!name.isEmpty)
  return name

/-- The URI of a directive begins with `!` or another character of a tag. -/
def directive : Scan Unit := do
  unindentTo (-1)
  forgetKey
  allowKey false
  take 1
  let name ← takeWhile isHandle
  guard (!name.isEmpty && isGap (← peek 0))
  if name = ['Y', 'A', 'M', 'L'] then
    let _ ← takeWhile isSpace
    let major ← takeWhile Char.isDigit
    guard (!major.isEmpty && major.length ≤ 9 && (← peek 0) = '.')
    take 1
    let minor ← takeWhile Char.isDigit
    guard (!minor.isEmpty && minor.length ≤ 9)
    push .versionDirective
  else if name = ['T', 'A', 'G'] then
    let _ ← takeWhile isSpace
    let handle ← tagHandle true
    let _ ← takeWhile isSpace
    let uri ← if (← peek 0) = '!' then do
        take 1
        pure ('!' :: (← uriWhile isUri))
      else do
        guard (isTagChar (← peek 0))
        uriWhile isUri
    guard (isGap (← peek 0))
    push (.tagDirective handle uri)
  else
    skipComment
    push (.tagDirective [] [])
  let _ ← skipToLineEnd true
  guard (isBreakOrEnd (← peek 0))
  let _ ← breakLine

/-- What a backslash stands for in a quoted scalar, by the character behind it. -/
def escapes : List (Char × Char) :=
  [('0', '\x00'), ('a', '\x07'), ('b', '\x08'), ('t', '\t'), ('\t', '\t'), ('n', '\n'), ('v', '\x0b'),
    ('f', '\x0c'), ('r', '\r'), ('e', '\x1b'), (' ', ' '), ('"', '"'), ('/', '/'), ('\\', '\\'),
    ('N', '\u0085'), ('_', '\u00a0'), ('L', '\u2028'), ('P', '\u2029')]

def escapeLengths : List (Char × Nat) := [('x', 2), ('u', 4), ('U', 8)]

def escape : Scan Char := do
  let c ← peek 1
  match escapes.lookup c with
  | some meant =>
    take 2
    return meant
  | none =>
    let length ← escapeLengths.lookup c
    take 2
    let written := (← get).rest.take length
    let digits ← (written.mapM hexValue? : Option (List Nat))
    guard (digits.length = length)
    take length
    charOf? (digits.foldl (fun n d => 16 * n + d) 0)

/-- The part of a quoted scalar up to its end or the next gap, and whether it ended in a backslash
that hides a line break. -/
def quotedWord (single : Bool) : Nat → Scan (Text × Bool)
  | 0 => return ([], false)
  | fuel + 1 => do
    let c ← peek 0
    let next ← peek 1
    let also (c : Char) : Scan (Text × Bool) := do
      let (word, joined) ← quotedWord single fuel
      return (c :: word, joined)
    if isGap c then return ([], false)
    else if single then
      if c = '\'' then
        if next = '\'' then
          take 2
          also '\''
        else return ([], false)
      else
        take 1
        also c
    else if c = '"' then return ([], false)
    else if c = '\\' then
      if isBreak next then
        take 1
        let _ ← breakLine
        return ([], true)
      else also (← escape)
    else
      take 1
      also c

/-- Blanks and line breaks inside a scalar: the blanks before the first break, and how many breaks
there are. `tabLimit` is the column up to which a tab would be taken for indentation, and `tab`
deals with one there. -/
def gapInScalar (leading : Bool) (tabLimit : Int) (tab : Scan Unit) : Nat → Scan (Text × Nat)
  | 0 => return ([], 0)
  | fuel + 1 => do
    let c ← peek 0
    if isSpace c then
      if leading then
        if c = '\t' && (← column) < tabLimit then tab else advance 1
        gapInScalar true tabLimit tab fuel
      else
        advance 1
        let (blanks, breaks) ← gapInScalar false tabLimit tab fuel
        return (c :: blanks, breaks)
    else if ← breakLine then
      let (_, breaks) ← gapInScalar true tabLimit tab fuel
      return ([], breaks + 1)
    else return ([], 0)

/-- What a gap stands for: its blanks, or a space for one line break and a break less for several.
A break that a backslash hides counts for nothing. -/
def foldGap (joined : Bool) (blanks : Text) (breaks : Nat) : Text :=
  if joined then List.replicate breaks '\n'
  else match breaks with
    | 0 => blanks
    | 1 => [' ']
    | more + 2 => List.replicate (more + 1) '\n'

def quotedText (single : Bool) : Nat → Scan Text
  | 0 => failure
  | fuel + 1 => do
    let s ← get
    guard (!(← atAnyDocumentMark) && !s.rest.isEmpty && s.indent ≤ s.mark.column)
    let (word, joined) ← quotedWord single (s.rest.length + 1)
    if (← peek 0) = (if single then '\'' else '"') then return word
    else
      let (blanks, breaks) ← gapInScalar joined s.indent failure (s.rest.length + 1)
      return word ++ foldGap joined blanks breaks ++ (← quotedText single fuel)

/-- A quoted scalar. Behind it the line ends, a key's `:` follows, or a flow collection goes on. -/
def quoted (single : Bool) : Scan Unit := do
  noteKey
  allowKey false
  let s ← get
  take 1
  let text ← quotedText single (s.rest.length + 1)
  take 1
  let _ ← skipToLineEnd true
  let c ← peek 0
  let flow ← inFlow
  guard (isBreakOrEnd c || flow && (c = ',' || c = '\x7d' || c = ']' || c = ':') ||
    !flow && c = ':' && s.mark.line = (← get).mark.line)
  skipGaps
  modify fun s => { s with adjacentValueAt := s.mark.index }
  push (.scalar false text)

/-- Whether the scalar can go on with the character here: not with a `:` before a gap, nor with the
marks of a flow collection inside one. -/
def inPlain : Scan Bool := do
  let c ← peek 0
  let next ← peek 1
  let flow ← inFlow
  return !isGap c && !(c = ':' && (isGap next || flow && isFlow next)) && !(flow && isFlow c)

def plainWord : Nat → Scan Text
  | 0 => return []
  | fuel + 1 => do
    if ← inPlain then
      let c ← peek 0
      take 1
      return c :: (← plainWord fuel)
    else return []

/-- The text of a plain scalar from the gap `before` on. -/
def plainText (limit : Int) (before : Text) : Nat → Scan Text
  | 0 => return []
  | fuel + 1 => do
    let s ← get
    if (← atAnyDocumentMark) || (← peek 0) = '#' then return []
    guard (!(s.flowLevel ≠ 0 && (← peek 0) = '-' && isFlow (← peek 1)))
    let word ← plainWord (s.rest.length + 1)
    let text := if word.isEmpty then [] else before ++ word
    let c ← peek 0
    if !(isSpace c || isBreak c) then return text
    let lineOfTab : Scan Unit := do
      let _ ← skipToLineEnd true
      guard (isBreakOrEnd (← peek 0))
    let (blanks, breaks) ← gapInScalar (← get).leading limit lineOfTab (s.rest.length + 1)
    if s.flowLevel = 0 && (← column) < limit then return text
    return text ++ (← plainText limit (foldGap false blanks breaks) fuel)

def plain : Scan Unit := do
  noteKey
  allowKey false
  unindentOnes
  let s ← get
  guard (s.flowLevel = 0 || s.indent < s.mark.column)
  let text ← plainText (s.indent + 1) [] (s.rest.length + 1)
  if (← get).leading then allowKey true
  push (.scalar true text)

inductive Chomping
  | clip
  | strip
  | keep
deriving DecidableEq

/-- The signs behind the mark of a block scalar, in either order: how its end is chomped, and by how
much it is indented. -/
def blockHeader : Scan (Chomping × Nat) := do
  let sign : Scan Chomping := do
    match ← peek 0 with
    | '+' => take 1; return .keep
    | '-' => take 1; return .strip
    | _ => return .clip
  let digit : Scan Nat := do
    let c ← peek 0
    if c.isDigit then
      guard (c ≠ '0')
      take 1
      return c.toNat - 48
    else return 0
  let first ← sign
  let increment ← digit
  if first = .clip && increment ≠ 0 then return (← sign, increment)
  return (first, increment)

/-- Passes the empty lines before the first line of a block scalar, and gives their number and the
widest indentation among them and that line. -/
def firstIndent (widest : Nat) : Nat → Scan (Nat × Nat)
  | 0 => return (0, widest)
  | fuel + 1 => do
    advance ((← get).rest.takeWhile (· = ' ')).length
    let widest := max widest (← get).mark.column
    if ← breakLine then
      let (breaks, widest) ← firstIndent widest fuel
      return (breaks + 1, widest)
    else return (0, widest)

/-- Passes empty lines and at most `indent` spaces of the next one, and counts the lines. -/
def blockIndent (indent : Nat) : Nat → Scan Nat
  | 0 => return 0
  | fuel + 1 => do
    let s ← get
    advance ((s.rest.take (indent - s.mark.column)).takeWhile (· = ' ')).length
    if ← breakLine then return (← blockIndent indent fuel) + 1
    else return 0

/-- The lines of a block scalar, each with the number of line breaks before it, and the number of
breaks behind the last. The flag says that the text ended without one. -/
def blockLines (indent before : Nat) : Nat → Scan (List (Nat × Text) × Nat × Bool)
  | 0 => return ([], before, false)
  | fuel + 1 => do
    let s ← get
    if s.mark.column ≠ indent || s.rest.isEmpty || indent = 0 && (← atDocumentMark '.') then
      return ([], before, false)
    let line ← takeWhile (!isBreak ·)
    if (← get).rest.isEmpty then return ([(before, line)], 0, true)
    let _ ← breakLine
    let breaks ← blockIndent indent (s.rest.length + 1)
    let (lines, last, cut) ← blockLines indent (breaks + 1) fuel
    return ((before, line) :: lines, last, cut)

/-- Joins the lines of a folded scalar: between two that do not start with a blank, one line break
is a space, and of several the first is dropped. -/
def foldLines (blankBefore : Bool) : List (Nat × Text) → Text
  | [] => []
  | (breaks, line) :: rest =>
    let blank := (line.head?.map isSpace).getD false
    let gap :=
      if 0 < breaks && !blankBefore && !blank then foldGap false [] breaks else List.replicate breaks '\n'
    gap ++ line ++ foldLines blank rest

/-- A block scalar. Line breaks before its first line are kept; those at its end go by the chomping,
and a last line without a break is given one. -/
def block (literal : Bool) : Scan Unit := do
  noteKey
  allowKey true
  let start := (← get).mark.line
  take 1
  unindentOnes
  let (chomping, increment) ← blockHeader
  let _ ← skipToLineEnd true
  guard (isBreakOrEnd (← peek 0))
  let _ ← breakLine
  guard ((← peek 0) ≠ '\t')
  let s ← get
  let fuel := s.rest.length + 1
  let (leading, indent) ← do
    if increment = 0 then
      let (breaks, widest) ← firstIndent 0 fuel
      pure (breaks, max widest (s.indent + 1).toNat)
    else
      let indent := (max s.indent 0).toNat + increment
      pure (← blockIndent indent fuel, indent)
  let s ← get
  if s.rest.isEmpty then
    let breaks := match chomping with
      | .strip => 0
      | .clip => 1
      | .keep => max 1 leading
    push (.scalar false (List.replicate (if s.mark.line = start then 0 else breaks) '\n'))
  else
    guard (!(s.mark.column < indent && s.indent < s.mark.column))
    let (lines, last, cut) ← blockLines indent leading fuel
    let text := match lines with
      | [] => []
      | (breaks, line) :: rest =>
        let blank := (line.head?.map isSpace).getD false
        List.replicate breaks '\n' ++ line ++
          if literal then rest.flatMap fun (breaks, line) => List.replicate breaks '\n' ++ line
          else foldLines blank rest
    let s ← get
    let missing := if s.rest.isEmpty && max indent 1 ≤ s.mark.column then 1 else 0
    let tail := if lines.isEmpty then (0, last) else if cut then (0, 0) else (1, last - 1)
    let breaks := match chomping with
      | .strip => 0
      | .clip => tail.1 + missing
      | .keep => tail.1 + missing + tail.2
    push (.scalar false (text ++ List.replicate breaks '\n'))

def flowStart (token : Token) : Scan Unit := do
  noteKey
  indentOne
  guard ((← get).flowLevel < 255)
  modify fun s => { s with
    candidates := ⟨false, false, 0, s.mark⟩ :: s.candidates
    flowLevel := s.flowLevel + 1
    flowMappingStarted := s.flowMappingStarted || token = .flowMappingStart
    singlePairs := if token = .flowMappingStart then s.singlePairs else false :: s.singlePairs }
  allowKey true
  take 1
  let _ ← skipToLineEnd true
  push token

/-- Ends the mapping of a single pair in a flow sequence, if one is open. -/
def endSinglePair : Scan Unit := do
  match (← get).singlePairs with
  | true :: outer =>
    modify fun s => { s with flowMappingStarted := false, singlePairs := false :: outer }
    push .flowMappingEnd
  | _ => pure ()

def flowEnd (token : Token) : Scan Unit := do
  forgetKey
  modify fun s =>
    if s.flowLevel = 0 then s else { s with flowLevel := s.flowLevel - 1, candidates := s.candidates.tail }
  allowKey false
  if token = .flowSequenceEnd then
    endSinglePair
    modify fun s => { s with singlePairs := s.singlePairs.tail }
  take 1
  let _ ← skipToLineEnd true
  modify fun s => if s.flowLevel = 0 then s else { s with adjacentValueAt := s.mark.index }
  push token

def flowEntry : Scan Unit := do
  forgetKey
  allowKey true
  endSinglePair
  take 1
  let _ ← skipToLineEnd true
  push .flowEntry

def blockEntry : Scan Unit := do
  let s ← get
  guard (s.flowLevel = 0 && s.keyAllowed)
  take 1
  indentBlock s.mark.column s.tokens.size .blockSequenceStart
  let (tabs, _) ← skipToLineEnd true
  guard (!(tabs && (← peek 0) = '-' && isGap (← peek 1)))
  let c ← peek 0
  if isBreak c || isFlow c then indentOne
  forgetKey
  allowKey true
  push .blockEntry

def explicitKey : Scan Unit := do
  let s ← get
  if s.flowLevel = 0 then
    guard s.keyAllowed
    indentBlock s.mark.column s.tokens.size .blockMappingStart
  else set { s with flowMappingStarted := true }
  forgetKey
  allowKey (s.flowLevel = 0)
  take 1
  let c ← peek 0
  guard (c = ' ' || isBreak c)
  let rec pass : Nat → Scan Unit
    | 0 => pure ()
    | fuel + 1 => do
      let c ← peek 0
      if c = ' ' then
        advance 1
        pass fuel
      else if c = '#' then
        skipComment
        pass fuel
      else if ← breakLine then
        if s.flowLevel = 0 then allowKey true
        pass fuel
  pass ((← get).rest.length + 1)
  guard ((← peek 0) ≠ '\t')
  push .key

/-- A `:`, behind which a value follows. If a key was noted, its tokens are put in front of it now. -/
def value : Scan Unit := do
  let s ← get
  let singlePair := !s.singlePairs.isEmpty && !s.flowMappingStarted
  if singlePair then set { s with singlePairs := true :: s.singlePairs.tail }
  take 1
  if (← peek 0) = '\t' then
    let (_, spaces) ← skipToLineEnd true
    let c ← peek 0
    guard (spaces || !(c = '-' || isHandle c))
  match s.candidates with
  | [] => failure
  | k :: outer =>
    if k.possible then
      insertAt k.token .key
      if singlePair then
        guard (s.mark.line ≤ k.mark.line)
        insertAt k.token .flowMappingStart
      indentBlock k.mark.column k.token .blockMappingStart
      indentOne
      modify fun s => { s with candidates := { k with possible := false } :: outer }
      allowKey false
    else
      if singlePair then push .flowMappingStart
      if s.flowLevel = 0 then
        guard s.keyAllowed
        indentBlock s.mark.column (← get).tokens.size .blockMappingStart
      indentOne
      allowKey (s.flowLevel = 0)
  push .value

/-- The end of the text ends all blocks. A key that had to come has not. -/
def finish : Scan Unit := do
  guard (!(← get).candidates.any fun k => k.possible && k.required)
  modify fun s => { s with candidates := s.candidates.map fun k => { k with possible := false } }
  unindentTo (-1)

def documentMark (token : Token) : Scan Unit := do
  unindentTo (-1)
  forgetKey
  allowKey false
  take 3
  push token

def next : Scan Bool := do
  skipGaps
  dropStaleKeys
  unindentTo (← column)
  let s ← get
  let c ← peek 0
  let after ← peek 1
  let flow := s.flowLevel ≠ 0
  if s.rest.isEmpty then
    finish
    return false
  if s.mark.column = 0 && c = '%' then directive
  else if ← atDocumentMark '-' then documentMark .documentStart
  else if ← atDocumentMark '.' then
    documentMark .documentEnd
    let _ ← skipToLineEnd true
    guard (isBreakOrEnd (← peek 0))
  else
    guard (s.indent ≤ s.mark.column)
    if c = '[' then flowStart .flowSequenceStart
    else if c = '\x7b' then flowStart .flowMappingStart
    else if c = ']' then flowEnd .flowSequenceEnd
    else if c = '\x7d' then flowEnd .flowMappingEnd
    else if c = ',' then flowEntry
    else if c = '-' && isGap after then blockEntry
    else if c = '?' && isGap after then explicitKey
    else if c = ':' && isGap after then value
    else if c = ':' && flow && (isFlow after || s.mark.index = s.adjacentValueAt) then
      guard (s.mark.index = s.adjacentValueAt || !(after = '[' || after = '\x7b'))
      value
    else if c = '*' || c = '&' then
      noteKey
      allowKey false
      let name ← anchorName
      push (if c = '*' then .alias name else .anchor name)
    else if c = '!' then
      noteKey
      allowKey false
      tag
    else if c = '|' && !flow then block true
    else if c = '>' && !flow then block false
    else if c = '\'' then quoted true
    else if c = '"' then quoted false
    else
      guard (c ≠ '%' && c ≠ '@' && c ≠ '\x60')
      plain
  return true

def all : Nat → Scan Unit
  | 0 => failure
  | fuel + 1 => do if ← next then all fuel

end Scan

/-- The tokens of a text that is well formed so far. A character 0 ends it. -/
def Token.scan (t : Text) : Option (List Token) := do
  let t := t.takeWhile (!isEnd ·)
  let start : Mark := ⟨0, 0, 0⟩
  let s : Scanner := ⟨t, start, true, #[], true, [⟨false, false, 0, start⟩], -1, [], 0, 0, false, []⟩
  let ((), s) ← (Scan.all (t.length + 2)).run s
  return s.tokens.toList

end Transclusion.Yaml
