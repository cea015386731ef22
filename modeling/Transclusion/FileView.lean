import Transclusion.Spelling

namespace Transclusion

inductive FileKind
  | file
  | directory
deriving DecidableEq, Repr

inductive AccessCause
  | notFound
  | permissionDenied
  | alreadyExists
  | invalidInput
  | invalidData
  | notADirectory
  | isADirectory
  | filesystemLoop
  | resourceBusy
  | other (label : String)
deriving DecidableEq, Repr

structure AccessError where
  cause : AccessCause
  message : String
deriving DecidableEq, Repr

/-- What can be asked about files without changing any. `cwd` is where relative paths start. -/
structure FileView where
  cwd : Path
  kind : Path → Option FileKind
  read : Path → Except AccessError Text
  /-- Every file below a directory. -/
  list : Path → Except AccessError (List Path)
  cwd_absolute : cwd.isAbsolute
  /-- What is found below a directory is given with the path of the directory in front. -/
  list_absolute {dir : Path} {found : List Path} :
    dir.isAbsolute → list dir = .ok found → ∀ p ∈ found, p.isAbsolute

/-- Files that can be looked at and written. Whether a write succeeds may hang on the spelling of
its target, and a failed one may leave directories behind. -/
class FileStore (σ : Type) where
  view : σ → FileView
  write : σ → Spelling → Text → Except AccessError Unit × σ

namespace AccessError

def emptyPath : AccessError := ⟨.invalidInput, "cannot make an empty path absolute"⟩

end AccessError

namespace FileView

/-- The normal form of a path that starts at the root or at the current directory. -/
def absolute (files : FileView) (p : Path) : Except AccessError Path :=
  match Path.absolute? files.cwd p with
  | some q => .ok q
  | none => .error .emptyPath

/-- As `absolute`, but a path that has no absolute form stays as it is. -/
def absoluteOr (files : FileView) (p : Path) : Path := (Path.absolute? files.cwd p).getD p

end FileView

end Transclusion
