import Transclusion.Path

namespace Transclusion

/-- A path as somebody wrote it. What is printed back keeps every slash of it, and a file is not
written to a name that ends in one. -/
structure Spelling where
  text : Text
deriving DecidableEq, Repr, Inhabited

namespace Spelling

def path (s : Spelling) : Path := .parse s.text

def ofPath (p : Path) : Spelling := ⟨p.text⟩

def isEmpty (s : Spelling) : Bool := s.text.isEmpty

/-- `t` written behind the directory `s`; an absolute `t` replaces it. -/
def join (s t : Spelling) : Spelling :=
  if t.text.head? = some '/' || s.text.isEmpty then t
  else if s.text.getLast? = some '/' then ⟨s.text ++ t.text⟩
  else ⟨s.text ++ '/' :: t.text⟩

/-- A piece between slashes that takes no step: nothing, or a lone dot. -/
def isIdle (piece : Text) : Bool := piece = [] || piece = ['.']

/-- Slashes and lone dots at the end mean nothing and are cut off. A rooted spelling keeps its
slash and a relative one its leading dot. -/
def trimEnd (s : Spelling) : Spelling :=
  match s.text.splitOn '/' with
  | [] => s
  | first :: rest =>
    let kept := (rest.reverse.dropWhile isIdle).reverse
    if kept.isEmpty && first.isEmpty && !rest.isEmpty then ⟨['/']⟩ else ⟨['/'].intercalate (first :: kept)⟩

/-- Drops the pieces that take the first `n` steps, and the idle ones behind them. -/
def dropSteps : Nat → List Text → List Text
  | _, [] => []
  | n, piece :: rest =>
    if isIdle piece then dropSteps n rest
    else match n with
      | 0 => piece :: rest
      | n + 1 => dropSteps n rest

/-- How `s` is written from the directory `base` on, when it lies below it or is it. Apart from
idle pieces at the two ends, what is left is spelled as it was. -/
def stripStart? (base : Path) (s : Spelling) : Option Spelling :=
  match base.stripStart? s.path with
  | none => none
  | some _ =>
    if base.isEmpty then some s.trimEnd
    else
      let named := base.components.countP fun c => c ≠ .root && c ≠ .current
      some (trimEnd ⟨['/'].intercalate (dropSteps named (s.text.splitOn '/'))⟩)

/-- `s` as a reader at `base` wants to see it. -/
def relativeTo (base : Path) (s : Spelling) : Spelling := (stripStart? base s).getD s

/-- The spelling of the directory that holds the file, if there is one. -/
def parent? (s : Spelling) : Option Spelling :=
  match s.path.parent? with
  | none => none
  | some _ =>
    match (trimEnd s).text.splitOn '/' with
    | [] => none
    | pieces =>
      let before := pieces.dropLast
      if before.isEmpty then some ⟨[]⟩
      else if before.all (·.isEmpty) then some ⟨['/']⟩
      else some (trimEnd ⟨['/'].intercalate before⟩)

/-- `s` and the directories above it, as far as the spelling shows them. Each has a step less, so there
are no more of them than characters. -/
def ancestors (s : Spelling) : List Spelling := go s.text.length s
where
  go : Nat → Spelling → List Spelling
    | 0, s => [s]
    | n + 1, s => s :: ((s.parent?.map (go n)).getD [])

/-- The same place with another last name. -/
def withFileName (s : Spelling) (name : Text) : Spelling :=
  match s.path.fileName? with
  | none => s.join ⟨name⟩
  | some _ => (s.parent?.getD ⟨[]⟩).join ⟨name⟩

end Spelling

end Transclusion
