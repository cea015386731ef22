import Transclusion.Expansion

namespace Transclusion

structure ListedReference where
  reference : Reference
  resolution : Resolution
deriving DecidableEq, Repr

/-- The references of a document's text, those in its front matter left out. Their positions are those in
the whole text. -/
def referencesIn (files : FileView) (options : CompileOptions) (p : Path) (t : Text) :
    List ListedReference :=
  let body := (Reference.extract t options.oneBased).filter fun r => FrontMatter.sizeIn t ≤ r.start
  body.map fun r => ⟨r, resolve files (p.parent?.getD .root) (options.extensions.map dotted) r.target⟩

def listReferences (files : FileView) (options : CompileOptions) (file : Spelling) :
    Except Fault (List ListedReference) := do
  let path ← files.placeDocument file "cli::refs"
  let t ← (files.readDocument path "listing references" "cli::refs").mapError .file
  return referencesIn files options path t

end Transclusion
