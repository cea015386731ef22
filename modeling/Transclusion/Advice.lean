import Transclusion.Failure
import Transclusion.Paint

namespace Transclusion

/-- A failure as it is shown to somebody who has to deal with it. -/
structure Advice where
  failure : Failure
  details : Option String
  suggestion : Option String
deriving DecidableEq, Repr

namespace Advice

/-- What can be said about a failure from its kind alone. -/
def ofFailure (f : Failure) : Advice :=
  let (details, suggestion) : Option String × Option String := match f with
    | .documentNotFound path =>
      (some ("The top-level document must exist; " ++
          "missing referenced files are reported per reference instead"),
        some ("Check that '" ++ path ++ "' exists. Paths are resolved relative to the current directory"))
    | .documentIsDirectory _ =>
      (none, some "Pass a markdown file, or pass the folder itself to compile every document in it")
    | .notADirectory _ =>
      (none, some ("Pass a directory to build a dependency graph, " ++
        "or use 'atref compile <FILE>' for a single document"))
    | .permissionDenied _ path =>
      (some "atref needs read access to documents and write access to output locations",
        some ("Check the permissions of '" ++ path ++ "'"))
    | .configSyntax file reason =>
      (some reason, some ("Check the TOML syntax in " ++ file ++
        ". Common issues: missing quotes, unknown keys, wrong value types"))
    | .config _ => (none, some "Extensions look like '.md' and max_depth must be at least 1")
    | .pattern .. => (none, some "Exclude patterns use glob syntax, e.g. 'drafts/**' or '**/*.tmp.md'")
    | .fileSystem .. => (none, none)
    | .other _ => (none, none)
  ⟨f, details, suggestion⟩

def ofFileFailure (f : FileFailure) : Advice :=
  let failure := match f.cause.cause with
    | .permissionDenied => Failure.permissionDenied f.operation.text f.path
    | _ => Failure.fileSystem f.operation.text f.path
  ⟨failure, some f.userMessage, none⟩

/-- Advice on a file that could not be reached, when nothing else is known about it. -/
def ofAccessError? (e : AccessError) : Option Advice :=
  match e.cause with
  | .permissionDenied =>
    some ⟨.permissionDenied "file access" "unknown",
      some "atref needs read access to every referenced file and write access to the output location",
      some "Check file ownership and permissions of the documents being compiled"⟩
  | .notFound =>
    some ⟨.fileSystem "file access" "unknown",
      some "This error occurs when a required file or directory cannot be found",
      some "Check that the file or directory exists and the path is correct"⟩
  | .invalidData =>
    some ⟨.other e.message, some "atref reads every document as UTF-8",
      some "Make sure the document is valid UTF-8 text"⟩
  | _ => none

/-- The chain of what happened, outermost first, as a numbered list. -/
def ofChain (chain : List String) : Advice :=
  let causes := (chain.drop 1).zipIdx 1 |>.map fun (cause, n) => "\n  " ++ toString n ++ ": " ++ cause
  let tail := if causes.isEmpty then "" else "\n\nCaused by:" ++ String.join causes
  ⟨.other (chain.headD "" ++ tail), none, none⟩

/-- Advice on whatever stopped an operation. Words around a fault that has advice of its own are not
shown. -/
def ofFault (fault : Fault) : Advice :=
  match fault.core with
  | .failure f => ofFailure f
  | .file f => ofFileFailure f
  | .access e => (ofAccessError? e).getD (ofChain fault.chain)
  | .configSyntax reason =>
    ⟨.configSyntax "atref.toml" reason, some reason,
      some "Check the TOML syntax in your atref.toml file. Verify quotes, brackets, and key names"⟩
  | _ => ofChain fault.chain

def text (a : Advice) : String :=
  a.failure.message ++ ((a.details.map ("\nDetails: " ++ ·)).getD "") ++
    (a.suggestion.map ("\nSuggestion: " ++ ·)).getD ""

def terminalText (a : Advice) (color : Bool) : String :=
  let line (paint : Paint) (label s : String) : String := paint.apply color label ++ ": " ++ s ++ "\n"
  line .boldRed "error" a.failure.message ++ ((a.details.map (line .yellow "details")).getD "") ++
    (a.suggestion.map (line .green "suggestion")).getD ""

end Advice

end Transclusion
