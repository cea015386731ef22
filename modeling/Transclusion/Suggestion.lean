import Transclusion.Disk
import Transclusion.Expansion
import Transclusion.Similarity

namespace Transclusion.Suggestion

/-- How alike a name has to be. -/
def threshold : Float := 0.75

/-- How well the name of a file fits the wanted one, with its extension or without. -/
def fit (wanted name : Text) : Float :=
  let whole := Similarity.score wanted name
  let stem := Similarity.score wanted (Path.cutExtension name).1
  if whole < stem then stem else whole

/-- The name that fits best, if one fits well enough; of equally good ones the first. -/
def closest? (wanted : Text) (names : List Text) : Option Text :=
  let better (best : Option (Float × Text)) (name : Text) : Option (Float × Text) :=
    let score := fit wanted name
    match best with
    | none => if threshold ≤ score then some (score, name) else none
    | some (highest, _) => if threshold ≤ score && highest < score then some (score, name) else best
  (names.foldl better none).map (·.2)

/-- What the reference of a record may have been meant to say, if it led to nothing: the same path with
the name of something that stands where its target was expected. -/
def ofRecord? (disk : Disk) (r : Record) : Option Spelling := do
  guard (r.outcome = .notFound)
  let target : Spelling := ⟨r.reference.target⟩
  let wanted ← target.path.fileName?
  let directory ← r.importedFrom.parent?
  let expected := (directory.join (.parse (target.text.dropWhile (· = '/')))).normalize
  let found ← (disk.locate true (← expected.parent?).text).toOption
  let name ← closest? wanted ((disk.children found.1).map (·.1))
  return target.withFileName name

end Transclusion.Suggestion
