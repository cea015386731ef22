import Transclusion.ConfigFile
import Transclusion.FolderRun
import Transclusion.Suggestion

namespace Transclusion

/-- Something that keeps documents from being compiled in full: a failed reference, with what it may have
been meant to say, or a document that failed as a whole. -/
inductive Problem
  | reference (record : Record) (suggestion : Option Spelling)
  | document (path : Path) (message : String)

/-- What is wrong with a document or with those of a folder. Cycles matter to a strict reader only. -/
structure Validation where
  strict : Bool
  documents : Nat
  references : Nat
  problems : List Problem
  cycles : List (List Path)

namespace Problem

def file : Problem → Path
  | reference record _ => record.importedFrom
  | document path _ => path

def message : Problem → String
  | reference record _ => record.issueText?.getD ""
  | document _ message => message

def suggestion? : Problem → Option Spelling
  | reference _ suggestion => suggestion
  | document .. => none

def ofRecords (disk : Disk) (records : List Record) : List Problem :=
  (records.filter (·.outcome.isFailure)).map fun r => reference r (Suggestion.ofRecord? disk r)

/-- A document's own problem comes before those of its references. -/
def ofDocument (disk : Disk) (d : DocumentResult) : List Problem :=
  (d.error?.map (document d.path)).toList ++ ofRecords disk d.records

end Problem

namespace Validation

def isValid (v : Validation) : Bool := v.problems.isEmpty && (!v.strict || v.cycles.isEmpty)

def problemCount (v : Validation) : Nat := v.problems.length + if v.strict then v.cycles.length else 0

end Validation

/-- Compiles a document or the documents of a folder, without writing any, and collects what is wrong. -/
def validate (disk : Disk) (config : Config) (strict : Bool) (path : Spelling) : Except Fault Validation :=
  let options := config.commandOptions
  if disk.kindOf path.text = some .directory then do
    let run ← (compileFolder disk ⟨options, config.exclude, none, false⟩ path).1
    return ⟨strict, run.documents.length, run.totalReferences,
      run.documents.flatMap (Problem.ofDocument disk), run.cycles⟩
  else do
    let result ← (compileFile disk options path none false).1
    return ⟨strict, 1, result.records.length, Problem.ofRecords disk result.records, []⟩

end Transclusion
