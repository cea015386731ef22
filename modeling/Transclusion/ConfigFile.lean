import Transclusion.Config
import Transclusion.Disk

namespace Transclusion.Config

def fileName : Text := "atref.toml".toList

/-- The project file nearest to a directory, in it or in one above. -/
def nearest? (disk : Disk) (dir : Spelling) : Option Spelling :=
  (dir.ancestors.map (·.join ⟨fileName⟩)).find? fun s => disk.kindOf s.text = some .file

/-- Settings that were read from `file`. A relative output directory is meant from its directory on. -/
def readFrom (file : Spelling) (config : Config) : Config :=
  { config with
    outputDir := config.outputDir.map fun dir => ((file.parent?.map (·.join dir)).getD dir)
    source := some file }

def read (disk : Disk) (file : Spelling) : Except Fault Config := do
  let name := String.ofList file.text
  let t ← (disk.readText file.text).mapError fun e =>
    .file ⟨.read, name, "loading configuration", "config", e, []⟩
  match parse? t with
  | none => throw (.failure (.configSyntax name "these are not the settings of a project"))
  | some config =>
    match config.complaint? with
    | some failure => throw (.failure failure)
    | none => return config.readFrom file

/-- The settings in the given file, or else in the nearest one to a directory, or else none. -/
def load (disk : Disk) (given : Option Spelling) (dir : Spelling) : Except Fault Config :=
  match given <|> nearest? disk dir with
  | some file => read disk file
  | none => .ok empty

end Transclusion.Config
