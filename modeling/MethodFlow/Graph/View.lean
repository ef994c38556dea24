import MethodFlow.Graph.Digraph

/-!
# Views of a graph

The algorithms on graphs need only the number of nodes and the neighbours in both directions.  A
`View` is just that, so each algorithm runs on a graph and, turned around, on its reverse.
-/

namespace MethodFlow

/-- The shape of a graph: how many nodes it has and which follow and precede each of them. -/
structure View where
  size : Nat
  succ : NodeId → List NodeId
  pred : NodeId → List NodeId

namespace View

/-- The same graph with every edge turned around. -/
def reverse (v : View) : View := ⟨v.size, v.pred, v.succ⟩

/-- The numbers of the nodes. -/
def nodes (v : View) : List NodeId := List.range v.size

end View

/-- The shape of a graph with data. -/
def Digraph.view {ν ε : Type} (g : Digraph ν ε) : View := ⟨g.size, g.successors, g.predecessors⟩

end MethodFlow
