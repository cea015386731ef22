import Transclusion.Discovery
import Transclusion.FrontMatter
import Transclusion.Graph.Basic
import Transclusion.Reference
import Transclusion.Resolution

namespace Transclusion

/-- The references between documents, and the documents that could not be read to find them. -/
structure DocumentGraph where
  graph : Graph
  unreadable : List (Path × FileFailure)

namespace DocumentGraph

def targetsOf (files : FileView) (extensions : List Text) (p : Path) (t : Text) : List Path :=
  (Reference.extract (FrontMatter.strip t) false).filterMap fun r =>
    match resolve files p.directory (extensions.map dotted) r.target with
    | .file q => some q
    | _ => none

/-- What each document refers to. One that cannot be read refers to nothing. -/
def scan (files : FileView) (extensions : List Text) (documents : List Path) :
    List (Path × Except FileFailure (List Path)) :=
  documents.map fun p =>
    (p, (files.readDocument p "scanning references" "dependency_graph").map (targetsOf files extensions p))

/-- The references found in some documents. Targets that are not among them are left out. -/
def edges (documents : List Path) (scanned : List (Path × Except FileFailure (List Path))) :
    List (Path × Path) :=
  scanned.flatMap fun (p, found) => ((found.toOption.getD []).filter documents.contains).map (p, ·)

/-- The graph of the given documents, with an edge for each reference between them. -/
def build (files : FileView) (extensions : List Text) (paths : List Path) : DocumentGraph :=
  let documents := sortNew compare (paths.map Path.normalize)
  let scanned := scan files extensions documents
  { graph := (Graph.isolated documents).addEdges (edges documents scanned)
    unreadable := scanned.filterMap fun (p, found) =>
      match found with
      | .error e => some (p, e)
      | .ok _ => none }

end DocumentGraph

structure FolderGraph where
  root : Path
  documents : DocumentGraph

/-- The graph of the documents below `dir`, less the excluded ones. -/
def FolderGraph.build (files : FileView) (extensions exclude : List Text) (dir : Spelling) :
    Except Fault FolderGraph := do
  let root ← files.placeFolder dir "cli::graph"
  let documents ← listDocuments files (.ofPath root) exclude
  return ⟨root, .build files extensions documents⟩

end Transclusion
