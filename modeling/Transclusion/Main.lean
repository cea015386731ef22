import Transclusion.Advice
import Transclusion.CommandLine.Run

namespace Transclusion.CommandLine

/-- A mistaken command line is answered with the usage on the error output. -/
def usageText : String :=
  "Usage: atref [OPTIONS] compile PATH | validate PATH | graph DIR | refs FILE\n" ++
    "The files that may be looked at are named on standard input, one a line; a directory ends in a slash.\n"

/-- Colors are for terminals, unless the environment forbids or forces them. -/
def wantsColor (forced forbidden : Option String) (onTerminal : Bool) : Bool :=
  match forced with
  | some value => value ≠ "0" || (forbidden.isNone && onTerminal)
  | none => forbidden.isNone && onTerminal

/-- Adds what a line of input names. -/
def addNamed (disk : Disk) (line : String) : IO Disk := do
  let p : Path := .parse line.toList
  let place := Disk.placeOf ((Path.absolute? (Disk.placePath disk.cwd) p).getD .root)
  if line.endsWith "/" then return disk.insert place .directory
  let bytes ← IO.FS.readBinFile line
  return disk.insert place (.file ((String.fromUTF8? bytes).map (·.toList)))

/-- Reads lines until the input ends. -/
partial def readLines (input : IO.FS.Stream) (before : Array String) : IO (Array String) := do
  let line ← input.getLine
  if line.isEmpty then return before
  let name := if line.endsWith "\n" then line.dropEnd 1 |>.toString else line
  readLines input (if name.isEmpty then before else before.push name)

def readDisk : IO Disk := do
  let cwd := Disk.placeOf (.parse (toString (← IO.currentDir)).toList)
  let names ← readLines (← IO.getStdin) #[]
  names.foldlM addNamed (Disk.insert ⟨[], cwd⟩ cwd .directory)

/-- Brings the changes of a command to the files. -/
def writeChanges (before after : Disk) : IO Unit := do
  for (place, t) in Disk.changes before after do
    IO.FS.createDirAll (String.ofList (Disk.placePath place.dropLast).text)
    IO.FS.writeFile (String.ofList (Disk.placePath place).text) (String.ofList t)

end Transclusion.CommandLine

open Transclusion

def main (args : List String) : IO UInt32 := do
  match CommandLine.parse (args.map (·.toList)) with
  | .error usage =>
    if usage.exitCode = 0 then IO.print CommandLine.usageText else IO.eprint CommandLine.usageText
    return usage.exitCode.toUInt32
  | .ok invocation =>
    let color := CommandLine.wantsColor (← IO.getEnv "CLICOLOR_FORCE") (← IO.getEnv "NO_COLOR")
      (← (← IO.getStdout).isTty)
    let disk ← CommandLine.readDisk
    let (done, after) := CommandLine.run disk color invocation
    CommandLine.writeChanges disk after
    match done with
    | .ok printed =>
      IO.print printed.results
      IO.eprint printed.remarks
      return printed.exitCode.toUInt32
    | .error fault =>
      IO.eprint ((Advice.ofFault fault).terminalText color)
      return 1
