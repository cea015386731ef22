import Transclusion.Graph.Basic

namespace Transclusion

/-- A line below the first of a tree: what is drawn in front of it, the documents on the branch that
leads to it, the document it shows, and whether that is on the branch already. -/
structure TreeLine where
  lead : Text
  branch : List Path
  path : Path
  circular : Bool
deriving DecidableEq, Repr

namespace TreeLine

def text (base : Path) (line : TreeLine) : Text :=
  line.lead ++ (Spelling.relativeTo base (.ofPath line.path)).text ++
    if line.circular then " (circular reference)".toList else []

end TreeLine

namespace Graph

/-- The lines for documents that hang below `branch`; `below` gives those that follow a document once
it has joined the branch. One that is on the branch already is shown but not followed. -/
def linesFor (below : List Path → Text → Path → List TreeLine) (branch : List Path) (lead : Text) :
    List Path → List TreeLine
  | [] => []
  | p :: rest =>
    let (mark, indent) := if rest.isEmpty then ("└── ", "    ") else ("├── ", "│   ")
    let followed := if branch.contains p then [] else below (branch ++ [p]) (lead ++ indent.toList) p
    ⟨lead ++ mark.toList, branch, p, branch.contains p⟩ :: followed ++ linesFor below branch lead rest

/-- The lines below `p`, the last document of the branch. No document comes twice on a branch, so none
is longer than the graph. -/
def linesBelow (g : Graph) : Nat → List Path → Text → Path → List TreeLine
  | 0, _, _, _ => []
  | fuel + 1, branch, lead, p => linesFor (linesBelow g fuel) branch lead (g.dependenciesOf p)

def treeLines (g : Graph) (root : Path) : List TreeLine := g.linesBelow (g.nodes.length + 1) [root] [] root

/-- The tree below `root`, its paths as seen from `base`. -/
def treeText (g : Graph) (root : Spelling) (base : Path) : Text :=
  let lines := (root.relativeTo base).text :: (g.treeLines root.path).map (·.text base)
  lines.flatMap (· ++ ['\n'])

/-- Where trees start: at the entry points, and at those of the other given documents, in order, that
no tree before leads to. -/
def treeRoots (g : Graph) (others : List Path) : List Path :=
  g.entryPoints ++ go (g.cover g.entryPoints []) others
where
  go (covered : List Path) : List Path → List Path
    | [] => []
    | p :: rest => if covered.contains p then go covered rest else p :: go (g.cover [p] covered) rest

/-- Trees that together show every document, when `cyclic` holds those that no entry point leads to. -/
def treesText (g : Graph) (cyclic : List Path) (base : Path) : Text :=
  (g.treeRoots cyclic).flatMap fun p => g.treeText (.ofPath p) base

end Graph

end Transclusion
