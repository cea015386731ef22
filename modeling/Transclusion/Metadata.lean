import Transclusion.FrontMatter
import Transclusion.JsonValue
import Transclusion.Yaml.Node

namespace Transclusion

namespace Metadata

/-- Adds a member in the order of the names; one of the same name is replaced. -/
def put (name : Text) (value : JsonValue) : List (Text × JsonValue) → List (Text × JsonValue)
  | [] => [(name, value)]
  | (other, old) :: rest =>
    match compare name other with
    | .lt => (name, value) :: (other, old) :: rest
    | .eq => (name, value) :: rest
    | .gt => (other, old) :: put name value rest

/-- The name that a key gives to a member. Collections give none. -/
def nameOf? : Yaml.Node → Option Text
  | .null => some "null".toList
  | .bool b => some (toString b).toList
  | .int i => some (toString i).toList
  | .real t => some t
  | .string t => some t
  | _ => none

mutual

/-- A node with its keys made names. Real numbers that are not plain decimals count as 0. -/
def ofNode : Yaml.Node → JsonValue
  | .null => .null
  | .invalid => .null
  | .bool b => .bool b
  | .int i => .int i
  | .real t => .number ((Numeral.decimal? t).getD (.zero false))
  | .string t => .string t
  | .sequence items => .array (ofNodes items)
  | .mapping entries => .object (ofEntries [] entries)

def ofNodes : List Yaml.Node → List JsonValue
  | [] => []
  | node :: rest => ofNode node :: ofNodes rest

def ofEntries (done : List (Text × JsonValue)) : List (Yaml.Node × Yaml.Node) → List (Text × JsonValue)
  | [] => done
  | (key, value) :: rest =>
    match nameOf? key with
    | some name => ofEntries (put name (ofNode value) done) rest
    | none => ofEntries done rest

end

end Metadata

/-- The metadata of a document: the first value in its front matter, or null where there is none that is
well formed. -/
def FrontMatter.data (matter : FrontMatter) : JsonValue :=
  match Yaml.documents? matter.metadata with
  | some (node :: _) => Metadata.ofNode node
  | _ => .null

end Transclusion
