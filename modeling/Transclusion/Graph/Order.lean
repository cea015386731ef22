import Transclusion.Graph.Basic

namespace Transclusion

/-- An order to compile documents in: first those that can follow all their dependencies, then those
on or behind a cycle. -/
structure CompileOrder where
  sorted : List Path
  cyclic : List Path
deriving DecidableEq, Repr

namespace CompileOrder

def all (o : CompileOrder) : List Path := o.sorted ++ o.cyclic

end CompileOrder

namespace Graph

/-- How many dependencies of each document are still to be placed. -/
abbrev Degrees := List (Path × Nat)

/-- One dependency less for `p`, when it is a document. -/
def lower (p : Path) (degrees : Degrees) : Degrees :=
  degrees.map fun (q, d) => if q = p then (q, d - 1) else (q, d)

/-- Tells the dependents that one of their dependencies is placed. Those that wait for none then are
ready. -/
def release : List Path → Degrees → List Path → Degrees × List Path
  | [], degrees, ready => (degrees, ready)
  | p :: rest, degrees, ready =>
    let degrees := lower p degrees
    release rest degrees (if degrees.lookup p = some 0 then insertNew compare p ready else ready)

/-- Places the smallest document that is ready, again and again. -/
def place (g : Graph) : Nat → Degrees → List Path → List Path
  | 0, _, _ => []
  | _ + 1, _, [] => []
  | fuel + 1, degrees, p :: ready =>
    let (degrees, ready) := release (g.dependentsOf p) degrees ready
    p :: place g fuel degrees ready

/-- Orders the documents by their dependencies, the smallest path first where there is a choice. In a
graph whose two directions agree every document is placed once; in others it may become ready again,
and no run that ends takes more steps than there are sets of documents. -/
def compileOrder (g : Graph) : CompileOrder :=
  let degrees := g.nodes.map fun node => (node.path, node.dependencies.length)
  let sorted := g.place (Nat.pow 2 g.nodes.length) degrees g.rootFiles
  ⟨sorted, g.paths.filter (!sorted.contains ·)⟩

end Graph

end Transclusion
