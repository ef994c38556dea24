import MethodFlow.Graph.Dominators

/-!
# Natural loops

An edge whose target dominates its source is a back edge.  Its natural loop consists of the
target, the header, and of all nodes dominated by the header from which the source can be reached
without passing the header.  Back edges to one header that give the same nodes belong to one
loop.
-/

namespace MethodFlow

/-- A natural loop. -/
structure NaturalLoop where
  header : NodeId
  /-- The nodes of the loop. -/
  body : BitSet
  /-- The sources of the back edges to the header, ascending. -/
  latches : List NodeId
  /-- How many loops the loop lies strictly inside of. -/
  depth : Nat
  deriving DecidableEq

namespace NaturalLoop

/-- Whether a node belongs to the loop. -/
def contains (l : NaturalLoop) (n : NodeId) : Bool := l.body.contains n

/-- The number of nodes of the loop. -/
def size (l : NaturalLoop) : Nat := l.body.count

/-- The back edges of the loop. -/
def backEdges (l : NaturalLoop) : List (NodeId × NodeId) := l.latches.map fun s => (s, l.header)

/-- Whether a loop lies strictly inside another one. -/
def inside (inner outer : NaturalLoop) : Bool :=
  inner.body != outer.body && inner.body.meet outer.body == inner.body

/-- Whether `b` is to be preferred to `a` as the innermost loop: it is deeper, or as deep and not
larger. -/
def deeper (a b : NaturalLoop) : Bool :=
  a.depth < b.depth || (a.depth == b.depth && b.size ≤ a.size)

end NaturalLoop

/-- The loops of a graph by header, then by the first back edge. -/
structure LoopForest where
  loops : List NaturalLoop

namespace View

variable (v : View) (d : Dominators)

/-- The sources of the back edges to a node, ascending. -/
def latches (header : NodeId) : List NodeId :=
  v.nodes.filter fun n => (v.succ n).contains header && d.dominates header n

/-- The edges whose target dominates their source, by source and then by target. -/
def backEdges : List (NodeId × NodeId) :=
  v.nodes.flatMap fun s =>
    (v.nodes.filter fun t => (v.succ s).contains t && d.dominates t s).map fun t => (s, t)

/-- The nodes of the natural loop of a back edge. -/
def loopBody (latch header : NodeId) : BitSet :=
  (explore v.pred (v.nodes.filter fun n => n ≠ header && d.dominates header n) [latch]).foldl
    BitSet.add ((BitSet.empty v.size).add header)

/-- Adds a back edge to the loop with the same nodes, or as a loop of its own. -/
def addLatch (header : NodeId) (loops : List NaturalLoop) (latch : NodeId) : List NaturalLoop :=
  let body := v.loopBody d latch header
  if loops.any fun l => l.body == body then
    loops.map fun l => if l.body == body then { l with latches := l.latches ++ [latch] } else l
  else loops ++ [⟨header, body, [latch], 0⟩]

/-- The loops with a given header, by their first back edge, before their nesting is known. -/
def loopsAt (header : NodeId) : List NaturalLoop :=
  (v.latches d header).foldl (v.addLatch d header) []

/-- All natural loops. -/
def loopForest : LoopForest :=
  let found := v.nodes.flatMap (v.loopsAt d)
  ⟨found.map fun l => { l with depth := found.countP fun outer => l.inside outer }⟩

end View

/-- The innermost loop that contains a node, the last one of several alike. -/
def LoopForest.innermost? (f : LoopForest) (n : NodeId) : Option NaturalLoop :=
  (f.loops.filter fun l => l.contains n).foldl
    (fun best l =>
      match best with
      | some b => if b.deeper l then some l else some b
      | none => some l)
    none

end MethodFlow
