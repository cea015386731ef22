import Transclusion.Compilation
import Transclusion.Discovery
import Transclusion.DocumentGraph
import Transclusion.Graph.Cycle
import Transclusion.Graph.Order

namespace Transclusion

/-- How a folder is compiled: where the documents are written, in place of themselves or mirrored
below `outputDir`, if at all. -/
structure FolderOptions where
  compile : CompileOptions
  exclude : List Text
  outputDir : Option Spelling
  inPlace : Bool

/-- What became of a document: compiled, perhaps with a complaint about writing it, or not even
that. -/
inductive DocumentOutcome
  | compiled (result : Compilation) (writeError : Option String)
  | failed (fault : Fault)

structure DocumentResult where
  path : Path
  cyclic : Bool
  outcome : DocumentOutcome

/-- What an observer of a run is told. -/
inductive FolderEvent
  | start (documents : Nat)
  | document (path : Path)
  | finish
deriving DecidableEq, Repr

/-- A folder that was compiled: its documents in the order they were compiled in, the cycles between
them, the import counts of the whole run, and the files written. -/
structure FolderRun where
  root : Path
  documents : List DocumentResult
  cyclic : List Path
  cycles : List (List Path)
  unreadable : List (Path × FileFailure)
  counts : List ImportCount
  written : List Path
  events : List FolderEvent

namespace DocumentResult

def result? (d : DocumentResult) : Option Compilation :=
  match d.outcome with
  | .compiled result _ => some result
  | .failed _ => none

def error? (d : DocumentResult) : Option String :=
  match d.outcome with
  | .compiled _ writeError => writeError
  | .failed fault => some fault.summary

/-- Failed references, or one for a document that failed as a whole. -/
def failureCount (d : DocumentResult) : Nat :=
  match d.outcome with
  | .compiled result _ => result.failureCount
  | .failed _ => 1

def records (d : DocumentResult) : List Record := (d.result?.map (·.records)).getD []

end DocumentResult

namespace FolderRun

def order (run : FolderRun) : List Path := run.documents.map (·.path)

def totalReferences (run : FolderRun) : Nat := (run.documents.map (·.records.length)).foldr (· + ·) 0

def totalFailures (run : FolderRun) : Nat := (run.documents.map (·.failureCount)).foldr (· + ·) 0

def hasFailures (run : FolderRun) : Bool := 0 < run.totalFailures

/-- The targets of circular references, in path order. -/
def circularPaths (run : FolderRun) : List Path :=
  sortNew compare
    (((run.documents.flatMap (·.records)).filter (·.outcome.isCircular)).map (·.resolution.path))

/-- Compiles the documents one after the other in one session, and tells the observer of each when it
is done. A document that fails as a whole leaves the session as it was. -/
def compileAll (files : FileView) (options : CompileOptions) (cyclic : List Path) (session : Session) :
    List Path → List DocumentResult × List FolderEvent × Session
  | [] => ([], [], session)
  | p :: rest =>
    let (outcome, session) := match compileDocument files options (.ofPath p) session with
      | .ok (result, session) => (.compiled result none, session)
      | .error fault => (.failed fault, session)
    let (later, told, session) := compileAll files options cyclic session rest
    (⟨p, cyclic.contains p, outcome⟩ :: later, .document p :: told, session)

/-- Where a compiled document goes: over itself, or to the same place below the output directory. -/
def target (root : Path) (outputDir : Option Path) (p : Path) : Path :=
  match outputDir with
  | some dir => dir.join ((root.stripStart? p).getD p)
  | none => p

/-- Writes the compiled documents in order. A failed write is noted on its document. -/
def writeAll [FileStore σ] (target : Path → Path) (store : σ) : List DocumentResult →
    List DocumentResult × List Path × σ
  | [] => ([], [], store)
  | d :: rest =>
    match d.outcome with
    | .failed _ =>
      let (later, written, store) := writeAll target store rest
      (d :: later, written, store)
    | .compiled result _ =>
      let goal := target d.path
      match FileStore.write store (.ofPath goal) result.content with
      | (.ok (), store) =>
        let (later, written, store) := writeAll target store rest
        ({ d with outcome := .compiled { result with output := some (.ofPath goal) } none } :: later,
          goal :: written, store)
      | (.error e, store) =>
        let (later, written, store) := writeAll target store rest
        let complaint := "Failed to write " ++ String.ofList goal.text ++ ": " ++ e.message
        ({ d with outcome := .compiled result (some complaint) } :: later, written, store)

end FolderRun

/-- Compiles all documents below `dir`, those that others refer to first, and writes them once the
last is compiled, so that none is read after it was overwritten. -/
def compileFolder [FileStore σ] (store : σ) (options : FolderOptions) (dir : Spelling) :
    Except Fault FolderRun × σ :=
  let files := FileStore.view store
  let found : Except Fault (Path × List Path) := do
    let root ← files.placeFolder dir "compiler::folder"
    return (root, ← listDocuments files (.ofPath root) options.exclude)
  match found with
  | .error fault => (.error fault, store)
  | .ok (root, listed) =>
    let built := DocumentGraph.build files options.compile.extensions listed
    let order := built.graph.compileOrder
    let (documents, told, session) :=
      FolderRun.compileAll files { options.compile with basePath := none } order.cyclic .empty order.all
    let outputDir := options.outputDir.map fun dir => files.absoluteOr dir.path
    let (documents, written, store) :=
      if outputDir.isSome || options.inPlace then
        FolderRun.writeAll (FolderRun.target root outputDir) store documents
      else (documents, [], store)
    (.ok {
      root := root
      documents := documents
      cyclic := order.cyclic
      cycles := built.graph.cycles
      unreadable := built.unreadable
      counts := session.counts
      written := written
      events := .start listed.length :: told ++ [.finish] }, store)

end Transclusion
