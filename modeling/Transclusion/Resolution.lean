import Transclusion.FileView

namespace Transclusion

/-- What a reference leads to: a file, a directory without an index document, or nothing, with the
path that was tried last. -/
inductive Resolution
  | file (path : Path)
  | directory (path : Path)
  | missing (lastTried : Path)
deriving DecidableEq, Repr

/-- An ending to try, its leading dot added when it was left out. -/
def dotted (ext : Text) : Text := if ext.head? = some '.' then ext else '.' :: ext

namespace Resolution

def path : Resolution → Path
  | file p => p
  | directory p => p
  | missing p => p

def isFile : Resolution → Bool
  | file _ => true
  | _ => false

def isDirectory : Resolution → Bool
  | directory _ => true
  | _ => false

def exists? : Resolution → Bool
  | missing _ => false
  | _ => true

/-- What is wrong with a reference that leads to no file. -/
def complaint? : Resolution → Option String
  | file _ => none
  | directory p => some ("Path is a directory: " ++ String.ofList p.text)
  | missing p => some ("File not found: " ++ String.ofList p.text)

/-- `candidate` with an ending behind its last name. -/
def withEnding (candidate : Path) (ext : Text) : Path := .parse (candidate.text ++ dotted ext)

def indexName : Text := ['i', 'n', 'd', 'e', 'x']

/-- The index document of a directory. -/
def indexIn (directory : Path) (ext : Text) : Path := directory.join (.parse (indexName ++ dotted ext))

/-- What is tried after `candidate` itself: with each ending, unless something stands at
`candidate`, and then as a directory with an index document. -/
def alternatives (files : FileView) (candidate : Path) (extensions : List Text) : List Path :=
  (if (files.kind candidate).isNone then extensions.map (withEnding candidate) else []) ++
    extensions.map (indexIn candidate)

/-- The first file among `candidate` and its alternatives. -/
def locate (files : FileView) (candidate : Path) (extensions : List Text) : Resolution :=
  if files.kind candidate = some .file then file candidate
  else
    let others := alternatives files candidate extensions
    match others.find? fun p => files.kind p = some .file with
    | some p => file p
    | none =>
      if files.kind candidate = some .directory then directory candidate
      else missing (others.getLastD candidate)

end Resolution

/-- Resolves the text of a reference that stands in a document of the directory `base`. An absolute
path is used as such when something is there; otherwise its slashes are dropped, so that `/a` also
means `a` below `base`. -/
def resolve (files : FileView) (base : Path) (extensions : List Text) (target : Text) : Resolution :=
  let below : Resolution :=
    let start := (Path.absolute? files.cwd base).getD base.normalize
    .locate files (start.join (.parse (target.dropWhile (· = '/')))).normalize extensions
  if target.head? = some '/' then
    match Resolution.locate files (Path.parse target).normalize extensions with
    | .missing _ => below
    | found => found
  else below

end Transclusion
