import Transclusion.Failure
import Transclusion.Sorting

namespace Transclusion

/-- Reads the exclude patterns; the first bad one is reported. -/
def parsePatterns (patterns : List Text) : Except Failure (List Glob) :=
  patterns.mapM fun t =>
    (Glob.parse t).mapError fun e => .pattern (String.ofList t) e.message

/-- Whether a pattern fits the path of a file as seen from `dir`. A file that does not lie below
`dir` as written is tried under its whole path. -/
def isExcluded (patterns : List Glob) (dir file : Path) : Bool :=
  patterns.any (·.fits ((dir.stripStart? file).getD file).text)

/-- The documents below a directory, less the excluded ones, in ascending order. -/
def listDocuments (files : FileView) (dir : Spelling) (exclude : List Text) : Except Fault (List Path) := do
  let patterns ← (parsePatterns exclude).mapError .failure
  let found ← (files.list dir.path).mapError fun cause =>
    .file ⟨.list, String.ofList dir.text, "discovering markdown documents",
      "markdown::list_markdown_files", cause, []⟩
  let documents := found.filter fun file => file.isDocument && !isExcluded patterns dir.path file
  return sortBy (fun p q => (compare p q).isLE) documents

end Transclusion
