import MethodFlow.Data.BitSet
import MethodFlow.Graph.Search
import MethodFlow.Graph.View
import MethodFlow.Log

/-!
# Dominators

A node dominates another when every path from the root to the second passes the first.  The
dominator sets are the greatest solution of "a node's dominators are itself and the common
dominators of its predecessors", found by sweeping over the nodes in ascending order until
nothing falls away.  Only predecessors that the root reaches count; a node that the root does
not reach has itself as its only dominator.

A sweep can only take members out of the sets, so the total weight of the sets falls with every
sweep that changes something, and the iteration ends.
-/

namespace MethodFlow

/-- The dominators of a graph from a root, with what is derived from them. -/
structure Dominators where
  root : NodeId
  /-- The dominators of each node. -/
  sets : Array BitSet
  /-- The number of sweeps, the last of which changed nothing. -/
  rounds : Nat
  /-- The closest strict dominator of each node. -/
  idoms : Array (Option NodeId)
  /-- The dominance frontier of each node. -/
  frontiers : Array (List NodeId)

namespace Dominators

/-! ## Dominator sets -/

/-- The nodes that the root reaches. -/
def reachable (v : View) (root : NodeId) : BitSet :=
  (explore v.succ v.nodes [root]).foldl BitSet.add (BitSet.empty v.size)

/-- The set of a node before the first sweep: everything, or only the node itself when it is the
root or is not reached. -/
def startSet (v : View) (reached : BitSet) (root node : NodeId) : BitSet :=
  if node = root ∨ reached.contains node = false then (BitSet.empty v.size).add node
  else BitSet.full v.size

/-- The nodes whose sets are refined, ascending: those that the root reaches, without the root,
each with its reached predecessors. -/
def refinements (v : View) (reached : BitSet) (root : NodeId) : List (NodeId × List NodeId) :=
  (v.nodes.filter fun node => node ≠ root && reached.contains node).map fun node =>
    (node, (v.pred node).filter reached.contains)

/-- What the sets of the predecessors leave of the set of a node, and the node itself. -/
def refined (sets : Array BitSet) (node : NodeId) (preds : List NodeId) (old : BitSet) : BitSet :=
  (preds.foldl (fun common p => common.meet (sets.getD p common)) old).add node

/-- Replaces the set of one node by what its predecessors leave of it. -/
def refineAt (sets : Array BitSet) (link : NodeId × List NodeId) : Array BitSet :=
  match sets[link.1]? with
  | some old => sets.setIfInBounds link.1 (refined sets link.1 link.2 old)
  | none => sets

/-- One pass over the nodes to be refined, each seeing the sets changed before it. -/
def sweep (links : List (NodeId × List NodeId)) (sets : Array BitSet) : Array BitSet :=
  links.foldl refineAt sets

/-- A number that falls whenever a member leaves one of the sets. -/
def weight (sets : Array BitSet) : Nat := sets.toList.foldr (fun s n => s.bits + n) 0

/-- Sweeps until the sets stay as they are; also counts the sweeps. -/
def settle (links : List (NodeId × List NodeId)) (sets : Array BitSet) (rounds : Nat) :
    Array BitSet × Nat :=
  let next := sweep links sets
  if weight next < weight sets then settle links next (rounds + 1)
  else (sets, rounds + 1)
termination_by weight sets

/-! ## The dominator tree and the frontiers -/

/-- The closest strict dominators: the one that has exactly one dominator less. -/
def immediate (sets : Array BitSet) : Array (Option NodeId) :=
  let depths := sets.map BitSet.count
  sets.mapIdx fun node set =>
    set.toList.find? fun d => d ≠ node && depths.getD d 0 + 1 == depths.getD node 0

/-- Whether `a` is among the dominators of `b`. -/
def among (sets : Array BitSet) (a b : NodeId) : Bool :=
  match sets[b]? with
  | some set => set.contains a
  | none => false

/-- The nodes with a predecessor that `node` dominates while not dominating them strictly. -/
def frontierOf (v : View) (sets : Array BitSet) (node : NodeId) : List NodeId :=
  v.nodes.filter fun f =>
    (v.pred f).any (fun p => among sets node p) && !(node ≠ f && among sets node f)

/-- The dominators of a graph from a root.  From a root that is no node nothing is reached. -/
def compute (v : View) (root : NodeId) : Dominators :=
  let reached := reachable v root
  let start := (Array.range v.size).map (startSet v reached root)
  let (sets, rounds) := settle (refinements v reached root) start 0
  { root, sets, rounds
    idoms := immediate sets
    frontiers := (Array.range v.size).map (frontierOf v sets) }

/-! ## Questions -/

/-- Whether `a` dominates `b`. -/
def dominates (d : Dominators) (a b : NodeId) : Bool := among d.sets a b

/-- Whether `a` dominates `b` and is another node. -/
def strictlyDominates (d : Dominators) (a b : NodeId) : Bool := a ≠ b && d.dominates a b

/-- The closest strict dominator of a node. -/
def idom? (d : Dominators) (node : NodeId) : Option NodeId := (d.idoms[node]?).join

/-- The nodes whose closest strict dominator is `node`, ascending. -/
def children (d : Dominators) (node : NodeId) : List NodeId :=
  (List.range d.idoms.size).filter fun n => d.idom? n == some node

/-- The dominance frontier of a node, ascending. -/
def frontier (d : Dominators) (node : NodeId) : List NodeId := d.frontiers.getD node []

/-- Everything that the frontiers of the given nodes, of the nodes in those frontiers and so on
contain, ascending.  Numbers that are no nodes are skipped. -/
def iteratedFrontier (d : Dominators) (defs : List NodeId) : List NodeId :=
  let queued := explore d.frontier (List.range d.sets.size) defs
  let found := queued.foldl (fun s n => (d.frontier n).foldl BitSet.add s)
    (BitSet.empty d.sets.size)
  found.toList

end Dominators

/-- What the computation of dominators says about itself. -/
def Dominators.event (d : Dominators) : LogEvent :=
  ⟨.trace, s!"dominator fixpoint for root {d.root.label} converged after {d.rounds} rounds"⟩

end MethodFlow
