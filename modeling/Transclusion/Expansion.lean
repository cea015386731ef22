import Transclusion.Failure
import Transclusion.FrontMatter
import Transclusion.HeadingShift
import Transclusion.Resolution
import Transclusion.Session

namespace Transclusion

/-- How documents are compiled. `basePath` is where the references of the compiled document itself
start; those of a document inlined into it always start at its own directory. `maxDepth` is how
deep inlined documents may nest. -/
structure CompileOptions where
  basePath : Option Path
  extensions : List Text
  optimizeDuplicates : Bool
  headingMode : HeadingMode
  maxDepth : Nat
  oneBased : Bool
deriving DecidableEq, Repr

/-- What became of a reference. The counts say how often its target has been imported by then. -/
inductive Outcome
  | inlined (content : Text) (count : Nat)
  | stubbed (count : Nat)
  | notFound
  | isDirectory
  | circular (chain : List Path)
  | tooDeep (limit : Nat)
  | unreadable (message : String) (count : Nat)
deriving DecidableEq, Repr

/-- A reference, where it leads, what became of it, and the document that holds it. -/
structure Record where
  reference : Reference
  resolution : Resolution
  outcome : Outcome
  importedFrom : Path
deriving DecidableEq, Repr

namespace CompileOptions

def defaultExtensions : List Text := [['.', 'm', 'd']]

def defaultMaxDepth : Nat := 64

def default : CompileOptions := ⟨none, defaultExtensions, true, .normalize, defaultMaxDepth, false⟩

instance : Inhabited CompileOptions := ⟨default⟩

end CompileOptions

namespace Outcome

def content? : Outcome → Option Text
  | inlined content _ => some content
  | _ => none

def importCount? : Outcome → Option Nat
  | inlined _ count => some count
  | stubbed count => some count
  | unreadable _ count => some count
  | _ => none

def isFailure : Outcome → Bool
  | inlined .. => false
  | stubbed _ => false
  | _ => true

def isStub : Outcome → Bool
  | stubbed _ => true
  | _ => false

def isCircular : Outcome → Bool
  | circular _ => true
  | _ => false

end Outcome

namespace Record

/-- Why a reference was left as it was written. -/
def issueText? (r : Record) : Option String :=
  let target := String.ofList r.resolution.path.text
  match r.outcome with
  | .inlined .. => none
  | .stubbed _ => none
  | .notFound => some ("File not found: " ++ target)
  | .isDirectory => some ("Path is a directory: " ++ target)
  | .circular chain =>
    some ("Circular reference: " ++ String.intercalate " → " (chain.map fun p => String.ofList p.text))
  | .tooDeep limit => some ("Maximum reference depth of " ++ toString limit ++ " exceeded")
  | .unreadable message _ => some ("Failed to read " ++ target ++ ": " ++ message)

def replacement? (r : Record) : Option Text :=
  match r.outcome with
  | .inlined content _ => some (WrapperTag.wrap r.resolution.path.text content)
  | .stubbed _ => some (WrapperTag.stubFor r.resolution.path.text)
  | _ => none

end Record

/-- Where an expansion takes place: the document, the directory that its references start at, and
the documents that are being expanded, the outermost first and this one last. -/
structure Site where
  file : Path
  base : Path
  ancestors : List Path

/-- An expanded document: its text, the records of its references, each followed by those of the
document it inlined, the number of headings clamped, and the session afterwards. -/
structure Expansion where
  content : Text
  records : List Record
  clamps : Nat
  session : Session

/-- A way to expand a text that stands at a site. -/
abbrev Expander := Site → Text → Session → Expansion

/-- One reference dealt with: its record, the records of the document it inlined, and the rest as in
an expansion. -/
structure Step where
  record : Record
  nested : List Record
  clamps : Nat
  session : Session

/-- `t` with the text at each of the ascending, disjoint spans replaced. `t` starts at `offset`. -/
def splice (t : Text) (offset : Nat) : List (Span × Text) → Text
  | [] => t
  | (s, new) :: rest =>
    t.takeBytes (s.start - offset) ++ new ++ splice (t.dropBytes (s.stop - offset)) s.stop rest

namespace Expansion

/-- Deals with the reference `r` that stands under a heading of level `context`. `deeper` expands a
document that is inlined here; without it there is no room for one. An unreadable document counts
as an import but not as inlined, so it is never stubbed. -/
def expandReference (files : FileView) (options : CompileOptions)
    (deeper : Option Expander) (site : Site) (context : Nat) (r : Reference)
    (session : Session) : Step :=
  let resolution := resolve files site.base (options.extensions.map dotted) r.target
  let settled (outcome : Outcome) (session : Session) : Step :=
    ⟨⟨r, resolution, outcome, site.file⟩, [], 0, session⟩
  match resolution with
  | .missing _ => settled .notFound session
  | .directory _ => settled .isDirectory session
  | .file p =>
    if site.ancestors.contains p then settled (.circular (site.ancestors ++ [p])) session
    else match deeper with
      | none => settled (.tooDeep options.maxDepth) session
      | some expand =>
        let counted := session.recordImport (.ofPath p)
        let count := counted.importCount p
        if options.optimizeDuplicates && counted.hasInlined p then settled (.stubbed count) counted
        else match files.read p with
          | .error e => settled (.unreadable e.message count) counted
          | .ok source =>
            let child := expand ⟨p, p.directory, site.ancestors ++ [p]⟩ (FrontMatter.strip source)
              (counted.markInlined p)
            let shifted := HeadingShift.under child.content options.headingMode context
            ⟨⟨r, resolution, .inlined shifted.content count, site.file⟩, child.records,
              child.clamps + shifted.clamped, child.session⟩

/-- Deals with the references one after the other, each in the session that the last one left. -/
def expandAll (one : Reference → Session → Step) : List Reference → Session → List Step
  | [], _ => []
  | r :: rest, session =>
    let step := one r session
    step :: expandAll one rest step.session

/-- Puts the replacements of the steps into the text they were made for. -/
def assemble (t : Text) (steps : List Step) (session : Session) : Expansion where
  content := splice t 0 (steps.filterMap fun step =>
    step.record.replacement?.map fun new =>
      (⟨step.record.reference.start, step.record.reference.stop⟩, new))
  records := steps.flatMap fun step => step.record :: step.nested
  clamps := (steps.map (·.clamps)).foldr (· + ·) 0
  session := (steps.getLast?.map (·.session)).getD session

def expandOnce (files : FileView) (options : CompileOptions)
    (deeper : Option Expander) (site : Site) (t : Text) (session : Session) : Expansion :=
  let headings := Heading.extract t true
  let one (r : Reference) :=
    expandReference files options deeper site (Heading.contextLevel headings r.start) r
  assemble t (expandAll one (Reference.extract t options.oneBased) session) session

/-- Expands a document below which `room` more documents may nest. -/
def expand (files : FileView) (options : CompileOptions) : Nat → Expander
  | 0 => expandOnce files options none
  | room + 1 => expandOnce files options (some (expand files options room))

end Expansion

end Transclusion
