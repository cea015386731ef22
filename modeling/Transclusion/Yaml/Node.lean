import Transclusion.Decimal.Numeral
import Transclusion.Yaml.Token

namespace Transclusion.Yaml

/-- A value as the text writes it. A real number keeps its text, and `invalid` is a scalar that does
not fit its tag. -/
inductive Node
  | null
  | invalid
  | bool (b : Bool)
  | int (i : Int)
  | real (text : Text)
  | string (text : Text)
  | sequence (items : List Node)
  | mapping (entries : List (Node × Node))
deriving BEq, Repr

/-- A tag with its handle replaced by what that stands for. -/
structure Tag where
  space : Text
  suffix : Text
deriving DecidableEq, Repr

def coreSpace : Text := "tag:yaml.org,2002:".toList

namespace Node

def isInfinityOrNaN (t : Text) : Bool :=
  let unsigned := match t with
    | '+' :: rest => rest
    | _ => t
  (["-.inf", "-.Inf", "-.INF", ".nan", ".NaN", ".NAN"].map String.toList).contains t ||
    ([".inf", ".Inf", ".INF"].map String.toList).contains unsigned

/-- A real number has a digit, unless it is one of the special ones. -/
def isReal (t : Text) : Bool := isInfinityOrNaN t || t.any Char.isDigit && (Numeral.decimal? t).isSome

def prefixedInt? : Text → Option Int
  | '0' :: 'x' :: t => Numeral.int64? 16 t
  | '0' :: 'o' :: t => Numeral.int64? 8 t
  | '+' :: t => Numeral.int64? 10 t
  | _ => none

def ofPlain (t : Text) : Node :=
  match prefixedInt? t with
  | some i => int i
  | none =>
    if (["~", "null"].map String.toList).contains t then null
    else if (["true", "True", "TRUE"].map String.toList).contains t then bool true
    else if (["false", "False", "FALSE"].map String.toList).contains t then bool false
    else match Numeral.int64? 10 t with
      | some i => int i
      | none => if isReal t then real t else string t

/-- What a plain scalar means under a tag. Only the core tags for single values ask for anything. -/
def ofTagged (tag : Tag) (t : Text) : Node :=
  if tag.space ≠ coreSpace then string t
  else match String.ofList tag.suffix with
    | "bool" => if t = "true".toList then bool true else if t = "false".toList then bool false else invalid
    | "int" => ((Numeral.int64? 10 t).map int).getD invalid
    | "float" => if isReal t then real t else invalid
    | "null" => if t = "~".toList || t = "null".toList then null else invalid
    | _ => string t

def ofScalar (isPlain : Bool) (tag : Option Tag) (t : Text) : Node :=
  if isPlain then
    match tag with
    | some tag => ofTagged tag t
    | none => ofPlain t
  else string t

def isInvalid : Node → Bool
  | invalid => true
  | _ => false

/-- Pairs keys and values. An invalid key is passed over, so that its value becomes the key of the
next one; no key comes twice. -/
def pairUp (key : Option Node) (done : List (Node × Node)) : List Node → Option (List (Node × Node))
  | [] => some done.reverse
  | node :: rest =>
    match key with
    | none => pairUp (if node.isInvalid then none else some node) done rest
    | some key => if done.any (·.1 == key) then none else pairUp none ((key, node) :: done) rest

def mappingOf? (nodes : List Node) : Option Node := (pairUp none [] nodes).map mapping

end Node

/-- A reader in the middle of the tokens: the anchors of the document by name, latest first, each
with its node once that is complete, and the handles that directives declared. -/
structure Reader where
  tokens : List Token
  anchors : List (Text × Nat)
  nodes : List (Nat × Node)
  handles : List (Text × Text)

/-- A step of the reader; tokens that make no document have none. -/
abbrev Read := StateT Reader Option

namespace Read

def peek : Read (Option Token) := do return (← get).tokens.head?

def skip : Read Unit := modify fun s => { s with tokens := s.tokens.tail }

def at_ (tokens : List Token) : Read Bool := do
  match ← peek with
  | some token => return tokens.contains token
  | none => return false

/-- Passes the token if it comes next, and says whether it did. -/
def accept (token : Token) : Read Bool := do
  if ← at_ [token] then
    skip
    return true
  else return false

def resolveTag (handle suffix : Text) : Read Tag := do
  let declared := (← get).handles.lookup handle
  if handle = ['!', '!'] then return ⟨declared.getD coreSpace, suffix⟩
  else match declared with
    | some space => return ⟨space, suffix⟩
    | none =>
      guard (handle.length < 2 || handle.getLast? ≠ some '!')
      return ⟨handle, suffix⟩

def register (name : Text) : Read Nat := do
  let s ← get
  let id := s.anchors.length
  set { s with anchors := (name, id) :: s.anchors }
  return id

def properties : Read (Option Nat × Option Tag) := do
  match ← peek with
  | some (.anchor name) =>
    skip
    let id ← register name
    match ← peek with
    | some (.tag handle suffix) =>
      skip
      return (some id, some (← resolveTag handle suffix))
    | _ => return (some id, none)
  | some (.tag handle suffix) =>
    skip
    let tag ← resolveTag handle suffix
    match ← peek with
    | some (.anchor name) =>
      skip
      return (some (← register name), some tag)
    | _ => return (none, some tag)
  | _ => return (none, none)

/-- The node that an alias repeats. One that is not complete yet has no value. -/
def aliased (name : Text) : Read Node := do
  let s ← get
  let id ← s.anchors.lookup name
  return (s.nodes.lookup id).getD .invalid

mutual

/-- A node. `inBlock` admits block collections, and `unindented` a sequence whose entries stand no
further right than the key it belongs to. -/
def node (inBlock unindented : Bool) : Nat → Read Node
  | 0 => failure
  | fuel + 1 => do
    match ← peek with
    | some (.alias name) =>
      skip
      aliased name
    | _ =>
      let (anchor, tag) ← properties
      let result ← match ← peek with
        | some (.scalar isPlain text) => do
          skip
          pure (Node.ofScalar isPlain tag text)
        | some .flowSequenceStart => do
          skip
          pure (.sequence (← flowEntries true fuel))
        | some .flowMappingStart => do
          skip
          Node.mappingOf? (← flowPairs true fuel)
        | next =>
          if unindented && next = some .blockEntry then do
            pure (.sequence (← unindentedEntries fuel))
          else if inBlock && next = some .blockSequenceStart then do
            skip
            pure (.sequence (← blockEntries fuel))
          else if inBlock && next = some .blockMappingStart then do
            skip
            Node.mappingOf? (← blockPairs fuel)
          else do
            guard (anchor.isSome || tag.isSome)
            pure (Node.ofScalar true tag [])
      match anchor with
      | some id => modify fun s => { s with nodes := (id, result) :: s.nodes }
      | none => pure ()
      return result

/-- A node, or null when one of the tokens `ends` comes instead. -/
def nodeUnless (ends : List Token) (inBlock unindented : Bool) : Nat → Read Node
  | 0 => failure
  | fuel + 1 => do if ← at_ ends then return .null else node inBlock unindented fuel

def blockEntries : Nat → Read (List Node)
  | 0 => failure
  | fuel + 1 => do
    if ← accept .blockEnd then return []
    guard (← accept .blockEntry)
    let item ← nodeUnless [.blockEntry, .blockEnd] true false fuel
    return item :: (← blockEntries fuel)

def unindentedEntries : Nat → Read (List Node)
  | 0 => failure
  | fuel + 1 => do
    if ← accept .blockEntry then
      let item ← nodeUnless [.blockEntry, .key, .value, .blockEnd] true false fuel
      return item :: (← unindentedEntries fuel)
    else return []

def blockPairs : Nat → Read (List Node)
  | 0 => failure
  | fuel + 1 => do
    let ends := [.key, .value, .blockEnd]
    if ← accept .blockEnd then return []
    let key ← do
      if ← accept .key then nodeUnless ends true true fuel
      else do
        guard (← at_ [.value])
        pure .null
    let value ← if ← accept .value then nodeUnless ends true true fuel else pure .null
    return key :: value :: (← blockPairs fuel)

def flowPairs (first : Bool) : Nat → Read (List Node)
  | 0 => failure
  | fuel + 1 => do
    if ← accept .flowMappingEnd then return []
    if !first then guard (← accept .flowEntry)
    if ← accept .flowMappingEnd then return []
    let ends := [.flowEntry, .flowMappingEnd]
    let (key, valued) ← do
      if ← accept .key then pure (← nodeUnless (.value :: ends) false false fuel, true)
      else if ← at_ [.value] then pure (.null, true)
      else pure (← node false false fuel, false)
    let value ← if valued && (← accept .value) then nodeUnless ends false false fuel else pure .null
    return key :: value :: (← flowPairs false fuel)

/-- The entries of a flow sequence. A key begins the mapping of a single pair. -/
def flowEntries (first : Bool) : Nat → Read (List Node)
  | 0 => failure
  | fuel + 1 => do
    if ← accept .flowSequenceEnd then return []
    if !first then guard (← accept .flowEntry)
    if ← accept .flowSequenceEnd then return []
    let item ← if ← accept .key then singlePair fuel else node false false fuel
    return item :: (← flowEntries false fuel)

/-- A single pair. A token that cannot begin its key is taken for an empty one. -/
def singlePair : Nat → Read Node
  | 0 => failure
  | fuel + 1 => do
    let key ← do
      if ← at_ [.value, .flowEntry, .flowSequenceEnd] then
        skip
        pure .null
      else node false false fuel
    let value ← do
      if ← accept .value then nodeUnless [.flowEntry, .flowSequenceEnd] false false fuel else pure .null
    Node.mappingOf? [key, value]

end

/-- Directives before a document. Only the last one has an effect on handles, and the version comes
once. -/
def directives (version : Bool) : Nat → Read Unit
  | 0 => failure
  | fuel + 1 => do
    match ← peek with
    | some .versionDirective =>
      guard !version
      modify fun s => { s with handles := [] }
      skip
      directives true fuel
    | some (.tagDirective handle uri) =>
      modify fun s => { s with handles := [(handle, uri)] }
      skip
      directives version fuel
    | _ => pure ()

def atDirective : Read Bool := do
  match ← peek with
  | some .versionDirective => return true
  | some (.tagDirective ..) => return true
  | _ => return false

/-- All documents. `bare` says that the next one needs no mark in front of it. -/
def documents (bare : Bool) : Nat → Read (List Node)
  | 0 => failure
  | fuel + 1 => do
    if ← accept .documentEnd then documents bare fuel
    else if (← peek).isNone then return []
    else
      modify fun s => { s with anchors := [], nodes := [] }
      let size := 8 * ((← get).tokens.length + 1)
      let marked ← pure ((← atDirective) || (← at_ [.documentStart]))
      let content ←
        if marked || !bare then do
          directives false size
          guard (← accept .documentStart)
          if (← atDirective) || (← at_ [.documentStart, .documentEnd]) || (← peek).isNone then pure .null
          else node true false size
        else node true false size
      let ended ← accept .documentEnd
      if !ended then guard !(← atDirective)
      modify fun s => { s with handles := [] }
      return content :: (← documents ended fuel)

end Read

/-- The documents of a text, unless some part of it is not well formed. -/
def documents? (t : Text) : Option (List Node) := do
  let tokens ← Token.scan t
  let (nodes, _) ← (Read.documents true (tokens.length + 1)).run ⟨tokens, [], [], []⟩
  return nodes

end Transclusion.Yaml
