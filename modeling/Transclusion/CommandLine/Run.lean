import Transclusion.CommandLine.Arguments
import Transclusion.CommandLine.Terminal
import Transclusion.Report

namespace Transclusion.CommandLine

/-- The settings with what the arguments say on top. -/
def compileOptions (config : Config) (a : CompileArguments) : CompileOptions :=
  let base := config.commandOptions
  { base with
    optimizeDuplicates := base.optimizeDuplicates && !a.noDedup
    headingMode := a.headingMode.getD base.headingMode
    extensions := if a.extensions.isEmpty then base.extensions else a.extensions.map dotted
    maxDepth := a.maxDepth.getD base.maxDepth }

/-- Where a folder is written: what the arguments say goes before the settings, and writing in place
before the settings as well. -/
def outputDir (config : Config) (a : CompileArguments) : Option Spelling :=
  a.output <|> (if a.write then none else config.outputDir)

/-- Compiles a document, or a folder if that is what the path leads to. -/
def compile (disk : Disk) (config : Config) (t : Terminal) (a : CompileArguments) :
    Except Fault Printout × Disk :=
  let options := compileOptions config a
  if disk.kindOf a.path.text = some .directory then
    let (done, disk) :=
      compileFolder disk ⟨options, config.exclude ++ a.exclude, outputDir config a, a.write⟩ a.path
    (done.map fun run =>
      match a.format with
      | .json => .ofReport (.object (Report.folder run)) (!run.hasFailures)
      | _ => t.folder (outputDir config a) run, disk)
  else
    let (done, disk) := compileFile disk options a.path a.output a.write
    (done.map fun result =>
      match a.format with
      | .json => .ofReport (.object (Report.compilationWithContent result)) (!result.hasFailures)
      | _ => t.compilation result, disk)

def showValidation (disk : Disk) (config : Config) (t : Terminal) (a : ValidateArguments) :
    Except Fault Printout := do
  let v ← validate disk config a.strict a.path
  return match a.format with
    | .json => .ofReport (.object (Report.validation v)) v.isValid
    | _ => t.validation v

def showGraph (disk : Disk) (config : Config) (t : Terminal) (a : GraphArguments) :
    Except Fault Printout := do
  let f ← FolderGraph.build disk.view config.commandOptions.extensions (config.exclude ++ a.exclude) a.dir
  return match a.format with
    | .json => .ofReport (.object (Report.folderGraph f)) true
    | .tree => Terminal.trees f
    | .text => t.graph f

def showReferences (disk : Disk) (config : Config) (t : Terminal) (a : RefsArguments) :
    Except Fault Printout := do
  let refs ← listReferences disk.view config.commandOptions a.file
  return match a.format with
    | .json =>
      .ofReport (.array (refs.map fun r => .object (Report.listed r))) (refs.all (·.resolution.isFile))
    | _ => t.references a.file refs

/-- Carries out a command. The settings that it names, or the nearest ones, are read first. -/
def run (disk : Disk) (color : Bool) (i : Invocation) : Except Fault Printout × Disk :=
  let cwd := Disk.placePath disk.cwd
  match Config.load disk i.config (.ofPath cwd) with
  | .error fault => (.error fault, disk)
  | .ok config =>
    let t : Terminal := ⟨cwd, color, i.quiet⟩
    match i.command with
    | .compile a => compile disk config t a
    | .validate a => (showValidation disk config t a, disk)
    | .graph a => (showGraph disk config t a, disk)
    | .refs a => (showReferences disk config t a, disk)

end Transclusion.CommandLine
