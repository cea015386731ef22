import Transclusion.FileView
import Transclusion.Glob

namespace Transclusion

/-- A condition that stops a whole operation. -/
inductive Failure
  | documentNotFound (path : String)
  | documentIsDirectory (path : String)
  | notADirectory (path : String)
  | fileSystem (operation path : String)
  | permissionDenied (operation path : String)
  | config (message : String)
  | configSyntax (file reason : String)
  | pattern (written reason : String)
  | other (message : String)
deriving DecidableEq, Repr

/-- What was being done with a file. -/
inductive FileOperation
  | read
  | write
  | metadata
  | list
  | create
deriving DecidableEq, Repr

/-- A file that could not be reached, and what it was wanted for by which part of the program. -/
structure FileFailure where
  operation : FileOperation
  path : String
  purpose : String
  caller : String
  cause : AccessError
  related : List String
deriving DecidableEq, Repr

/-- Whatever stops an operation, perhaps with words on what was being done. -/
inductive Fault
  | failure (failure : Failure)
  | file (failure : FileFailure)
  | access (error : AccessError)
  | configSyntax (reason : String)
  | other (message : String)
  | within (context : String) (inner : Fault)
deriving DecidableEq, Repr

namespace Failure

def message : Failure → String
  | documentNotFound path => "Document not found: " ++ path
  | documentIsDirectory path => "Expected a document but found a directory: " ++ path
  | notADirectory path => "Not a directory: " ++ path
  | fileSystem operation _ => "File system error: " ++ operation
  | permissionDenied operation _ => "Permission denied: " ++ operation
  | config message => "Configuration error: " ++ message
  | configSyntax file _ => "Invalid configuration file syntax in " ++ file
  | .pattern written reason => "Invalid pattern '" ++ written ++ "': " ++ reason
  | other message => message

end Failure

namespace FileOperation

def text : FileOperation → String
  | read => "reading"
  | write => "writing"
  | metadata => "getting file metadata"
  | list => "listing directory"
  | create => "creating directory"

end FileOperation

namespace FileFailure

def message (f : FileFailure) : String := "File operation failed: " ++ f.operation.text ++ " " ++ f.path

/-- What a reader can do about the cause. -/
def hint (f : FileFailure) : String :=
  match f.cause.cause with
  | .notFound => "The file does not exist at the specified path."
  | .permissionDenied => "Permission denied. Check file/directory permissions for: " ++ f.path
  | .invalidData =>
    "The file contains invalid data or encoding.\nEnsure the file contains valid UTF-8 text."
  | _ => "Error details: " ++ f.cause.message

/-- The long form: what was tried, why, what may help, and other files concerned. -/
def userMessage (f : FileFailure) : String :=
  let related :=
    if f.related.isEmpty then "" else "\n\nRelated paths:" ++ String.join (f.related.map ("\n  - " ++ ·))
  "Failed " ++ f.operation.text ++ " '" ++ f.path ++ "' for " ++ f.purpose ++ " (" ++ f.caller ++ ")\n\n" ++
    f.hint ++ related

end FileFailure

namespace Fault

/-- The fault without the words around it. -/
def core : Fault → Fault
  | within _ inner => inner.core
  | fault => fault

/-- What was being done, outermost first, then the fault and its cause. -/
def chain : Fault → List String
  | failure f => [f.message]
  | file f => [f.message, f.cause.message]
  | access e => [e.message]
  | configSyntax reason => [reason]
  | other message => [message]
  | within context inner => context :: inner.chain

/-- The whole chain on one line. -/
def summary (fault : Fault) : String := String.intercalate ": " fault.chain

end Fault

namespace FileView

/-- The absolute form of a path that `caller` wants for `purpose`. -/
def place (files : FileView) (s : Spelling) (purpose caller : String) : Except Fault Path :=
  (files.absolute s.path).mapError fun e => .file ⟨.metadata, String.ofList s.text, purpose, caller, e, []⟩

/-- Where a document is that must be there. -/
def placeDocument (files : FileView) (s : Spelling) (caller : String) : Except Fault Path := do
  let path ← files.place s "locating document" caller
  match files.kind path with
  | none => throw (.failure (.documentNotFound (String.ofList path.text)))
  | some .directory => throw (.failure (.documentIsDirectory (String.ofList path.text)))
  | some .file => return path

/-- Where a directory is that must be there. -/
def placeFolder (files : FileView) (s : Spelling) (caller : String) : Except Fault Path := do
  let path ← files.place s "locating folder" caller
  if files.kind path ≠ some .directory then throw (.failure (.notADirectory (String.ofList path.text)))
  return path

/-- Reads a document on behalf of `caller`. -/
def readDocument (files : FileView) (p : Path) (purpose caller : String) : Except FileFailure Text :=
  (files.read p).mapError fun cause => ⟨.read, String.ofList p.text, purpose, caller, cause, []⟩

end FileView

end Transclusion
