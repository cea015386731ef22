import Transclusion.Graph.Order
import Transclusion.Metadata
import Transclusion.ReferenceListing
import Transclusion.Validation

namespace Transclusion

namespace Report

abbrev Members := List (Text × JsonValue)

def member (name : String) (v : JsonValue) : Members := [(name.toList, v)]

def optional (name : String) (v : Option JsonValue) : Members := (v.map (member name)).getD []

def string (s : String) : JsonValue := .string s.toList

def count (n : Nat) : JsonValue := .int n

def path (p : Path) : JsonValue := .string p.text

def spelling (s : Spelling) : JsonValue := .string s.text

def paths (ps : List Path) : JsonValue := .array (ps.map path)

def reference (r : Reference) : Members :=
  member "raw" (.string r.raw) ++ member "target_path" (.string r.target) ++
    member "start_offset" (count r.start) ++
    member "end_offset" (count r.stop) ++ member "line" (count r.line) ++ member "column" (count r.column)

def resolution (r : Resolution) : Members :=
  member "absolute_path" (path r.path) ++ member "exists" (.bool r.exists?) ++
    member "is_directory" (.bool r.isDirectory) ++ optional "error" (r.complaint?.map string)

def listed (r : ListedReference) : Members :=
  reference r.reference ++ member "resolved" (.object (resolution r.resolution))

/-- Why a reference was left as it was written, by a kind and what belongs to it. -/
def issue? (r : Record) : Option JsonValue :=
  let ofKind (kind : String) (more : Members) : Option JsonValue :=
    some (.object (member "kind" (string kind) ++ more))
  let target := path r.resolution.path
  match r.outcome with
  | .inlined .. => none
  | .stubbed _ => none
  | .notFound => ofKind "not_found" (member "probed" target)
  | .isDirectory => ofKind "is_directory" (member "path" target)
  | .circular chain => ofKind "circular" (member "chain" (paths chain))
  | .unreadable message _ =>
    ofKind "read_failed" (member "path" target ++ member "message" (string message))
  | .tooDeep limit => ofKind "depth_exceeded" (member "limit" (count limit))

def record (r : Record) : Members :=
  member "reference" (.object (reference r.reference)) ++
    member "resolved_path" (.object (resolution r.resolution)) ++
    member "found" (.bool r.resolution.isFile) ++ optional "content" (r.outcome.content?.map .string) ++
    optional "issue" (issue? r) ++ member "circular" (.bool r.outcome.isCircular) ++
    member "stub" (.bool r.outcome.isStub) ++ optional "import_count" (r.outcome.importCount?.map count) ++
    member "imported_from" (path r.importedFrom)

def importCounts (counts : List ImportCount) : JsonValue :=
  .object (member "counts" (.object (counts.map fun c => (c.target.text, count c.count))) ++
    member "duplicates" (.array ((Session.duplicates counts).map spelling)))

def frontMatter (matter : FrontMatter) : JsonValue :=
  .object (member "raw" (.string matter.raw) ++ member "data" matter.data)

/-- A compiled document but for its content. -/
def compilation (c : Compilation) : Members :=
  member "path" (path c.path) ++ member "references" (.array (c.records.map fun r => .object (record r))) ++
    member "stats" (importCounts c.counts) ++ optional "front_matter" (c.frontMatter.map frontMatter) ++
    member "heading_clamps" (count c.clamps) ++ optional "output_path" (c.output.map spelling)

def compilationWithContent (c : Compilation) : Members :=
  compilation c ++ member "content" (.string c.content)

def document (d : DocumentResult) : Members :=
  member "path" (path d.path) ++ optional "result" (d.result?.map fun c => .object (compilation c)) ++
    optional "error" (d.error?.map string) ++ member "cyclic" (.bool d.cyclic)

def unreadable (failed : List (Path × FileFailure)) : JsonValue :=
  .array (failed.map fun (p, f) =>
    .object (member "path" (path p) ++ member "message" (string f.userMessage)))

def cycles (cs : List (List Path)) : JsonValue := .array (cs.map paths)

def folder (run : FolderRun) : Members :=
  member "root" (path run.root) ++
    member "documents" (.array (run.documents.map fun d => .object (document d))) ++
    member "cyclic" (paths run.cyclic) ++ member "cycles" (cycles run.cycles) ++
    member "graph_errors" (unreadable run.unreadable) ++
    member "total_documents" (count run.documents.length) ++
    member "total_references" (count run.totalReferences) ++
    member "total_failures" (count run.totalFailures) ++
    member "circular_paths" (paths run.circularPaths) ++ member "stats" (importCounts run.counts) ++
    member "written" (paths run.written)

def problem (p : Problem) : Members :=
  let place := match p with
    | .reference r _ =>
      member "line" (count r.reference.line) ++ member "column" (count r.reference.column) ++
        member "target" (.string r.reference.target)
    | .document .. => []
  member "file" (path p.file) ++ place ++ member "message" (string p.message) ++
    optional "suggestion" (p.suggestion?.map spelling)

def validation (v : Validation) : Members :=
  member "valid" (.bool v.isValid) ++ member "documents" (count v.documents) ++
    member "references" (count v.references) ++
    member "problems" (.array (v.problems.map fun p => .object (problem p))) ++
    member "cycles" (cycles v.cycles)

def nodes (g : Graph) : JsonValue :=
  .object (g.nodes.map fun n =>
    (n.path.text, .object
      (member "dependencies" (paths n.dependencies) ++ member "dependents" (paths n.dependents))))

def folderGraph (f : FolderGraph) : Members :=
  let g := f.documents.graph
  let order := g.compileOrder
  member "root" (path f.root) ++ member "nodes" (nodes g) ++ member "roots" (paths g.rootFiles) ++
    member "entry_points" (paths g.entryPoints) ++ member "order" (paths order.sorted) ++
    member "cyclic" (paths order.cyclic) ++ member "cycles" (cycles g.cycles) ++
    member "errors" (unreadable f.documents.unreadable)

end Report

end Transclusion
