import Transclusion.Graph.Tree
import Transclusion.JsonValue
import Transclusion.Paint
import Transclusion.ReferenceListing
import Transclusion.Validation

namespace Transclusion

/-- What a command prints, its results apart from what is said about them, and whether all it looked at is
in order. -/
structure Printout where
  results : String
  remarks : String
  passed : Bool
deriving DecidableEq, Repr

/-- How results are shown to a person: paths as seen from `cwd`, with colors or without. The quiet show
failures only. -/
structure Terminal where
  cwd : Path
  color : Bool
  quiet : Bool

namespace Printout

def exitCode (p : Printout) : Nat := if p.passed then 0 else 1

/-- A whole report for programs. -/
def ofReport (report : JsonValue) (passed : Bool) : Printout :=
  ⟨String.ofList report.text ++ "\n", "", passed⟩

end Printout

namespace Terminal

def spelling (t : Terminal) (s : Spelling) : String := String.ofList (s.relativeTo t.cwd).text

def path (t : Terminal) (p : Path) : String := t.spelling (.ofPath p)

def cross (t : Terminal) : String := Paint.red.apply t.color "✗"

def check (t : Terminal) : String := Paint.green.apply t.color "✓"

def warning (t : Terminal) : String := Paint.yellow.apply t.color "⚠"

def unlines (lines : List String) : String := String.join (lines.map (· ++ "\n"))

/-- Lines that the quiet do not see. -/
def loud (t : Terminal) (lines : List String) : List String := if t.quiet then [] else lines

/-- Where a reference stands, in the form that editors follow. -/
def position (t : Terminal) (r : Record) : String :=
  t.path r.importedFrom ++ ":" ++ toString r.reference.line ++ ":" ++ toString r.reference.column

def failures (t : Terminal) (records : List Record) : List String :=
  records.filterMap fun r => r.issueText?.map fun issue => t.cross ++ " " ++ t.position r ++ ": " ++ issue

def cycle (t : Terminal) (mark : String) (members : List Path) : String :=
  mark ++ " Dependency cycle: " ++ String.intercalate " → " (members.map t.path)

/-- A compiled document, unless it was written to a file. Its last line is ended. -/
def compilation (t : Terminal) (c : Compilation) : Printout where
  results :=
    if c.output.isSome then ""
    else String.ofList c.content ++ if c.content.getLast? = some '\n' then "" else "\n"
  remarks := unlines (t.failures c.records ++
    t.loud (c.output.toList.map fun s => t.check ++ " Wrote " ++ t.spelling s) ++
    t.loud (if 0 < c.clamps
      then [t.warning ++ " " ++ toString c.clamps ++ " heading(s) clamped to the valid range"]
      else []))
  passed := !c.hasFailures

/-- What became of a folder. `outputDir` is where its documents were meant to be written, if not over
themselves. -/
def folder (t : Terminal) (outputDir : Option Spelling) (run : FolderRun) : Printout where
  results := ""
  remarks :=
    let documents := run.documents.flatMap fun d =>
      (d.error?.map fun e => t.cross ++ " " ++ t.path d.path ++ ": " ++ e).toList ++ t.failures d.records
    let counts := "Compiled " ++ toString run.documents.length ++ " documents (" ++
      toString run.totalReferences ++ " references, " ++ toString run.totalFailures ++ " failures)"
    let summary :=
      if run.hasFailures then t.cross ++ " " ++ counts
      else t.check ++ " " ++ Paint.green.apply t.color counts
    let n := toString run.written.length
    let written := if run.written.isEmpty then []
      else match outputDir with
        | some dir => ["  Wrote " ++ n ++ " files to " ++ t.spelling dir]
        | none => ["  Rewrote " ++ n ++ " files in place"]
    unlines (documents ++ run.cycles.map (t.cycle t.warning) ++ t.loud (summary :: written))
  passed := !run.hasFailures

def problem (t : Terminal) (p : Problem) : List String :=
  let place := match p with
    | .reference r _ => t.position r
    | .document p _ => t.path p
  let advice (s : Spelling) : String :=
    "  " ++ Paint.green.apply t.color "→" ++ " did you mean @" ++ String.ofList s.text ++ "?"
  (t.cross ++ " " ++ place ++ ": " ++ p.message) :: (p.suggestion?.map advice).toList

/-- What is wrong with documents. Problems are the results here. -/
def validation (t : Terminal) (v : Validation) : Printout where
  results :=
    let summary :=
      if v.isValid then t.check ++ " " ++ toString v.documents ++ " documents, " ++ toString v.references ++
        " references, no problems"
      else t.cross ++ " " ++ toString v.problemCount ++ " problem(s) found"
    unlines (v.problems.flatMap t.problem ++
      v.cycles.map (t.cycle (if v.strict then t.cross else t.warning)) ++ t.loud [summary])
  remarks := ""
  passed := v.isValid

/-- The order to compile documents in, where it starts, and what keeps documents out of it. -/
def graph (t : Terminal) (f : FolderGraph) : Printout where
  results :=
    let g := f.documents.graph
    let order := g.compileOrder
    let numbered := order.sorted.zipIdx 1 |>.map fun (p, n) => "  " ++ toString n ++ ". " ++ t.path p
    let cyclic :=
      if order.cyclic.isEmpty then []
      else Paint.boldYellow.apply t.color "Unordered (cyclic):" ::
        order.cyclic.map fun p => "  " ++ t.path p
    unlines (Paint.bold.apply t.color "Compile order:" :: numbered ++
      [Paint.bold.apply t.color "Roots:" ++ " " ++ String.intercalate ", " (g.rootFiles.map t.path)] ++
      cyclic ++ g.cycles.map (t.cycle t.warning))
  remarks := unlines (f.documents.unreadable.map fun (p, e) =>
    t.warning ++ " " ++ t.path p ++ ": " ++ e.userMessage)
  passed := true

/-- The graph as trees that start at the documents which no other refers to. -/
def trees (f : FolderGraph) : Printout where
  results :=
    let g := f.documents.graph
    String.ofList (g.treesText g.compileOrder.cyclic f.root)
  remarks := ""
  passed := true

def references (t : Terminal) (file : Spelling) (refs : List ListedReference) : Printout where
  results :=
    let line (r : ListedReference) : String :=
      let place := " " ++ toString r.reference.line ++ ":" ++ toString r.reference.column ++ " " ++
        String.ofList r.reference.raw
      match r.resolution.complaint? with
      | none => t.check ++ place ++ " → " ++ t.path r.resolution.path
      | some complaint => t.cross ++ place ++ " (" ++ complaint ++ ")"
    unlines (refs.map line ++ if refs.isEmpty then t.loud ["No references in " ++ t.spelling file] else [])
  remarks := ""
  passed := refs.all (·.resolution.isFile)

end Terminal

end Transclusion
