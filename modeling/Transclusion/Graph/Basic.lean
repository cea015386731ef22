import Transclusion.Sorting
import Transclusion.Spelling

namespace Transclusion

/-- A document with the documents it refers to and those that refer to it, both in path order. -/
structure GraphNode where
  path : Path
  dependencies : List Path
  dependents : List Path
deriving DecidableEq, Repr

/-- The node as it is with `q` among what `p` refers to. -/
def GraphNode.linked (node : GraphNode) (p q : Path) : GraphNode :=
  { node with
    dependencies := if node.path = p then insertNew compare q node.dependencies else node.dependencies
    dependents := if node.path = q then insertNew compare p node.dependents else node.dependents }

/-- Documents in path order. The two directions of an edge are kept apart, so a graph that was not
built from documents may hold one without the other, or edges to no document. -/
structure Graph where
  nodes : List GraphNode
deriving DecidableEq, Repr

namespace Graph

/-- The given documents with no edge between them. -/
def isolated (documents : List Path) : Graph := ⟨documents.map (⟨·, [], []⟩)⟩

/-- Lets `p` refer to `q`. An edge that is there already makes no difference. -/
def addEdge (g : Graph) (p q : Path) : Graph := ⟨g.nodes.map (·.linked p q)⟩

/-- Adds edges one after the other, each from the first document of a pair to the second. -/
def addEdges (g : Graph) (edges : List (Path × Path)) : Graph :=
  edges.foldl (fun g (p, q) => g.addEdge p q) g

def paths (g : Graph) : List Path := g.nodes.map (·.path)

def node? (g : Graph) (p : Path) : Option GraphNode := g.nodes.find? (·.path = p)

def dependenciesOf (g : Graph) (p : Path) : List Path := ((g.node? p).map (·.dependencies)).getD []

def dependentsOf (g : Graph) (p : Path) : List Path := ((g.node? p).map (·.dependents)).getD []

def edgeCount (g : Graph) : Nat := (g.nodes.map (·.dependencies.length)).foldr (· + ·) 0

/-- Documents without dependencies, which can be compiled first. -/
def rootFiles (g : Graph) : List Path := (g.nodes.filter (·.dependencies.isEmpty)).map (·.path)

/-- Documents that no other refers to, where reading starts. -/
def entryPoints (g : Graph) : List Path := (g.nodes.filter (·.dependents.isEmpty)).map (·.path)

/-- Adds all that `pending` leads to along dependencies to `seen`, which is closed already. Every
document pushes its dependencies once, so the edges and the first `pending` bound the steps. -/
def collect (g : Graph) : Nat → List Path → List Path → List Path
  | 0, _, seen => seen
  | _ + 1, [], seen => seen
  | fuel + 1, p :: pending, seen =>
    if seen.contains p then collect g fuel pending seen
    else collect g fuel (g.dependenciesOf p ++ pending) (p :: seen)

/-- `seen` with all that `starts` leads to, themselves included. -/
def cover (g : Graph) (starts seen : List Path) : List Path :=
  g.collect (g.edgeCount + starts.length + 1) starts seen

end Graph

end Transclusion
