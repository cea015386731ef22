import Transclusion.Expansion
import Transclusion.Toml.Value

namespace Transclusion

/-- The settings of a project; what a project file leaves out is `none`. `source` is the file they
were read from. -/
structure Config where
  extensions : Option (List Text)
  optimizeDuplicates : Option Bool
  headingMode : Option HeadingMode
  maxDepth : Option Nat
  exclude : List Text
  outputDir : Option Spelling
  oneBased : Option Bool
  source : Option Spelling

namespace HeadingMode

def name : HeadingMode → String
  | normalize => "normalize"
  | additive => "additive"

def ofName? (t : Text) : Option HeadingMode :=
  if t = normalize.name.toList then some normalize
  else if t = additive.name.toList then some additive
  else none

end HeadingMode

namespace Config

def empty : Config := ⟨none, none, none, none, [], none, none, none⟩

def text? : Toml → Option Text
  | .string t => some t
  | _ => none

def texts? : Toml → Option (List Text)
  | .array items => items.mapM text?
  | _ => none

def flag? : Toml → Option Bool
  | .bool b => some b
  | _ => none

def count? : Toml → Option Nat
  | .int i => if 0 ≤ i && i < Int.pow 2 64 then some i.toNat else none
  | _ => none

/-- A mode by its name, or as a table whose only entry has that name and nothing in it. -/
def headingMode? : Toml → Option HeadingMode
  | .string t => HeadingMode.ofName? t
  | .table [(name, .table [])] => HeadingMode.ofName? name
  | .table [(name, .array [])] => HeadingMode.ofName? name
  | _ => none

/-- Takes over one setting. There are no others than these. -/
def set? (config : Config) (name : Text) (v : Toml) : Option Config :=
  match String.ofList name with
  | "extensions" => (texts? v).map fun x => { config with extensions := some x }
  | "optimize_duplicates" => (flag? v).map fun x => { config with optimizeDuplicates := some x }
  | "heading_mode" => (headingMode? v).map fun x => { config with headingMode := some x }
  | "max_depth" => (count? v).map fun x => { config with maxDepth := some x }
  | "exclude" => (texts? v).map fun x => { config with exclude := x }
  | "output_dir" => (text? v).map fun x => { config with outputDir := some ⟨x⟩ }
  | "one_based_positions" => (flag? v).map fun x => { config with oneBased := some x }
  | _ => none

/-- The settings that a project file states, if it is well formed and states nothing else. -/
def parse? (t : Text) : Option Config := do
  let entries ← Toml.parse? t
  entries.foldlM (fun config (name, v) => config.set? name v) empty

/-- An extension has more to it than dots, and no slash. -/
def isExtension (ext : Text) : Bool :=
  let bare := ext.dropWhile (· = '.')
  !bare.isEmpty && !bare.any fun c => c = '/' || c = '\\'

def complaint? (config : Config) : Option Failure :=
  match (config.extensions.getD []).find? (!isExtension ·) with
  | some ext => some (.config ("invalid extension '" ++ String.ofList ext ++ "'"))
  | none => if config.maxDepth = some 0 then some (.config "max_depth must be at least 1") else none

def compileOptions (config : Config) : CompileOptions :=
  let d := CompileOptions.default
  { basePath := none
    extensions := (config.extensions.map (·.map dotted)).getD d.extensions
    optimizeDuplicates := config.optimizeDuplicates.getD d.optimizeDuplicates
    headingMode := config.headingMode.getD d.headingMode
    maxDepth := config.maxDepth.getD d.maxDepth
    oneBased := config.oneBased.getD d.oneBased }

/-- The options for commands, whose positions are counted from 1 unless the settings say otherwise. -/
def commandOptions (config : Config) : CompileOptions :=
  { config.compileOptions with oneBased := config.oneBased.getD true }

end Config

end Transclusion
