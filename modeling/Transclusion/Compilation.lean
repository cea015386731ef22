import Transclusion.Expansion

namespace Transclusion

/-- A compiled document. The counts are those of the session right after it. -/
structure Compilation where
  path : Path
  content : Text
  records : List Record
  counts : List ImportCount
  frontMatter : Option FrontMatter
  clamps : Nat
  output : Option Spelling

namespace Compilation

def failureCount (c : Compilation) : Nat := c.records.countP (·.outcome.isFailure)

def hasFailures (c : Compilation) : Bool := c.records.any (·.outcome.isFailure)

end Compilation

/-- Compiles text that stands for the document at `file`, which is not read. -/
def compileContent (files : FileView) (options : CompileOptions) (t : Text) (file : Path)
    (session : Session) : Compilation × Session :=
  let path := files.absoluteOr file
  let base := match options.basePath with
    | some base => files.absoluteOr base
    | none => path.directory
  let expansion := Expansion.expand files options options.maxDepth ⟨path, base, [path]⟩
    (FrontMatter.strip t) session
  (⟨path, expansion.content, expansion.records, expansion.session.counts, FrontMatter.split? t,
    expansion.clamps, none⟩, expansion.session)

/-- Compiles the document at `file`. -/
def compileDocument (files : FileView) (options : CompileOptions) (file : Spelling) (session : Session) :
    Except Fault (Compilation × Session) := do
  let path ← files.placeDocument file "compiler::engine"
  let t ← (files.readDocument path "compiling document" "compiler::engine").mapError .file
  return compileContent files options t path session

/-- Compiles one document on its own and writes it to `output`, or over itself when `inPlace` asks for
that and there is no `output`. -/
def compileFile [FileStore σ] (store : σ) (options : CompileOptions) (file : Spelling)
    (output : Option Spelling) (inPlace : Bool) : Except Fault Compilation × σ :=
  match compileDocument (FileStore.view store) options file .empty with
  | .error e => (.error e, store)
  | .ok (result, _) =>
    match output <|> (if inPlace then some (.ofPath result.path) else none) with
    | none => (.ok result, store)
    | some target =>
      match FileStore.write store target result.content with
      | (.ok (), store) => (.ok { result with output := some target }, store)
      | (.error e, store) =>
        (.error (.file ⟨.write, String.ofList target.text, "writing compiled output",
          "compiler::engine", e, []⟩), store)

end Transclusion
