import Transclusion.Graph.Basic

namespace Transclusion.Graph

/-- For every document what a walk of at least one dependency leads to. -/
def reachTable (g : Graph) : List (Path × List Path) :=
  g.nodes.map fun node => (node.path, g.cover node.dependencies [])

def leadsTo (table : List (Path × List Path)) (p q : Path) : Bool := ((table.lookup p).getD []).contains q

/-- The documents that `p` leads to and that lead back to it. -/
def cycleOf (g : Graph) (table : List (Path × List Path)) (p : Path) : List Path :=
  g.paths.filter fun q => leadsTo table p q && leadsTo table q p

/-- Every set of documents that lead to each other, at its first member. -/
def cycles (g : Graph) : List (List Path) :=
  let table := g.reachTable
  g.paths.filterMap fun p =>
    let members := g.cycleOf table p
    if members.head? = some p then some members else none

end Transclusion.Graph
