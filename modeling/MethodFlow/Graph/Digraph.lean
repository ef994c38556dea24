import MethodFlow.Error

/-!
# Directed graphs

Nodes are numbered in the order in which they are added.  Both ends of an edge remember it: the
source with the payload, the target by the number of the source, each in the order of insertion.
A pair of nodes has at most one edge, and the first payload stays.  Edges are counted as they are
added.
-/

namespace MethodFlow

universe u v

/-- A node of a graph with its edges in both directions, in the order of insertion. -/
structure Digraph.Node (ν : Type u) (ε : Type v) where
  data : ν
  outgoing : List (NodeId × ε)
  incoming : List NodeId
  deriving Repr

/-- A directed graph with data on its nodes and edges. -/
structure Digraph (ν : Type u) (ε : Type v) where
  nodes : Array (Digraph.Node ν ε)
  /-- The number of edges. -/
  edgeCount : Nat
  deriving Repr

namespace Digraph

variable {ν : Type u} {ε : Type v}

/-- The graph without nodes. -/
def empty : Digraph ν ε := ⟨#[], 0⟩

instance : Inhabited (Digraph ν ε) := ⟨empty⟩

/-- The number of nodes. -/
def size (g : Digraph ν ε) : Nat := g.nodes.size

/-- The data of a node. -/
def data? (g : Digraph ν ε) (n : NodeId) : Option ν := g.nodes[n]?.map Node.data

/-- The edges that leave a node, in the order of insertion. -/
def outgoing (g : Digraph ν ε) (n : NodeId) : List (NodeId × ε) :=
  (g.nodes[n]?.map Node.outgoing).getD []

/-- The targets of the edges that leave a node. -/
def successors (g : Digraph ν ε) (n : NodeId) : List NodeId := (g.outgoing n).map Prod.fst

/-- The sources of the edges that reach a node. -/
def predecessors (g : Digraph ν ε) (n : NodeId) : List NodeId :=
  (g.nodes[n]?.map Node.incoming).getD []

/-- The payload of the edge between two nodes. -/
def edge? (g : Digraph ν ε) (source target : NodeId) : Option ε :=
  ((g.outgoing source).find? fun e => e.1 == target).map Prod.snd

/-- Whether there is an edge between two nodes. -/
def hasEdge (g : Digraph ν ε) (source target : NodeId) : Bool :=
  (g.outgoing source).any fun e => e.1 == target

/-- All edges with their payload, by source and then in the order of insertion. -/
def edges (g : Digraph ν ε) : List (NodeId × NodeId × ε) :=
  (List.range g.size).flatMap fun s => (g.outgoing s).map fun e => (s, e.1, e.2)

/-- The number of edges that leave a node. -/
def outDegree (g : Digraph ν ε) (n : NodeId) : Nat := (g.outgoing n).length

/-- The number of edges that reach a node. -/
def inDegree (g : Digraph ν ε) (n : NodeId) : Nat := (g.predecessors n).length

/-- Adds a node without edges; its number is the former size. -/
def addNode (g : Digraph ν ε) (data : ν) : Digraph ν ε :=
  { g with nodes := g.nodes.push ⟨data, [], []⟩ }

/-- Records a new edge at both of its ends. -/
def link (g : Digraph ν ε) (source target : NodeId) (data : ε) : Digraph ν ε :=
  ⟨(g.nodes.modify source fun n => { n with outgoing := n.outgoing ++ [(target, data)] }).modify
    target fun n => { n with incoming := n.incoming ++ [source] }, g.edgeCount + 1⟩

/-- Adds an edge unless the pair has one already. -/
def connect (g : Digraph ν ε) (source target : NodeId) (data : ε) : Digraph ν ε :=
  if g.hasEdge source target then g else g.link source target data

/-- Adds an edge unless the pair has one already; also tells whether it is new.  Both ends must
be nodes of the graph. -/
def addEdge (g : Digraph ν ε) (source target : NodeId) (data : ε) :
    Except Error (Digraph ν ε × Bool) :=
  if source ≥ g.size then .error (.nodeMissing source g.size)
  else if target ≥ g.size then .error (.nodeMissing target g.size)
  else .ok (g.connect source target data, !g.hasEdge source target)

end Digraph

end MethodFlow
