import MethodFlow.Data.SortedMap
import MethodFlow.Data.SortedSet
import MethodFlow.Graph.Search
import MethodFlow.Heap.Object

/-!
# Points-to graphs

A points-to graph says which abstract objects a variable may refer to, and which a field of an
object may refer to.  Both kinds of edges are known at both of their ends.  The object for null
is always there.

Edges of variables can be removed, edges of fields only be added.  A graph is bound to the family
of the ids it holds as soon as one of that family is created in it.
-/

namespace MethodFlow

/-- Edges by field. -/
abbrev FieldEdges := SortedMap FieldRef (SortedSet HeapId)

namespace FieldEdges

/-- The ids at the other end of the edges of a field. -/
def atField (e : FieldEdges) (f : FieldRef) : SortedSet HeapId := (e.get? f).getD .empty

/-- Adds an edge. -/
def add (e : FieldEdges) (f : FieldRef) (id : HeapId) : FieldEdges :=
  e.insert f ((atField e f).insert id)

/-- The ids at the other end of all edges. -/
def ids (e : FieldEdges) : List HeapId := e.values.flatMap SortedSet.toList

end FieldEdges

/-- An abstract object with its edges. -/
structure HeapNode where
  object : HeapObject
  /-- The variables that may refer to the object. -/
  holders : SortedSet Variable
  /-- The objects with a field that may refer to the object. -/
  sources : FieldEdges
  /-- The objects that a field of the object may refer to. -/
  targets : FieldEdges
  deriving DecidableEq

namespace HeapNode

/-- An object without edges. -/
def bare (object : HeapObject) : HeapNode := ⟨object, .empty, .empty, .empty⟩

def isNull (n : HeapNode) : Bool := n.object.kind == .null

def isUnknown (n : HeapNode) : Bool := n.object.kind == .unknown

/-- Whether two nodes have the same edges, whatever the objects are. -/
def sameEdges (n m : HeapNode) : Bool :=
  n.holders == m.holders && n.sources == m.sources && n.targets == m.targets

/-- Records a variable that may refer to the object. -/
def addVariable (n : HeapNode) (x : Variable) : HeapNode :=
  { n with holders := n.holders.insert x }

/-- Forgets that a variable may refer to the object. -/
def dropVariable (n : HeapNode) (x : Variable) : HeapNode :=
  { n with holders := n.holders.erase x }

/-- Records an object whose field may refer to this one. -/
def addSource (n : HeapNode) (f : FieldRef) (source : HeapId) : HeapNode :=
  { n with sources := FieldEdges.add n.sources f source }

/-- Records an object that a field of this one may refer to. -/
def addTarget (n : HeapNode) (f : FieldRef) (target : HeapId) : HeapNode :=
  { n with targets := FieldEdges.add n.targets f target }

end HeapNode

/-- A points-to graph. -/
structure HeapGraph where
  nodes : SortedMap HeapId HeapNode
  /-- What each known variable may refer to; a variable may be known to refer to nothing. -/
  bindings : SortedMap Variable (SortedSet HeapId)
  /-- The family of the ids, once there are any. -/
  family : Option Nat
  deriving DecidableEq

namespace HeapGraph

/-- The graph of null alone. -/
def empty : HeapGraph :=
  ⟨SortedMap.empty.insert HeapId.null (.bare .null), .empty, none⟩

instance : Inhabited HeapGraph := ⟨empty⟩

/-- The graph of null alone, bound to the family of an allocator. -/
def ofFamily (family : Nat) : HeapGraph := { empty with family := some family }

/-! ## Questions -/

/-- The node of an id. -/
def node? (g : HeapGraph) (id : HeapId) : Option HeapNode := g.nodes.get? id

/-- Whether an id has a node. -/
def contains (g : HeapGraph) (id : HeapId) : Bool := g.nodes.contains id

/-- What a variable may refer to. -/
def targets (g : HeapGraph) (x : Variable) : SortedSet HeapId := (g.bindings.get? x).getD .empty

/-- What a field of an object may refer to. -/
def fieldTargets (g : HeapGraph) (id : HeapId) (f : FieldRef) : SortedSet HeapId :=
  match g.node? id with
  | some n => FieldEdges.atField n.targets f
  | none => .empty

/-- The objects whose field may refer to an object. -/
def fieldSources (g : HeapGraph) (id : HeapId) (f : FieldRef) : SortedSet HeapId :=
  match g.node? id with
  | some n => FieldEdges.atField n.sources f
  | none => .empty

/-- What a variable may refer to other than null. -/
def referents (g : HeapGraph) (x : Variable) : List HeapId :=
  (g.targets x).toList.filter (· ≠ HeapId.null)

/-- Whether an id stands for objects of unknown origin. -/
def isUnknown (g : HeapGraph) (id : HeapId) : Bool := (g.node? id).any HeapNode.isUnknown

/-- Whether two variables may refer to the same object: both refer to something, and they share
an object or one of them refers to objects of unknown origin. -/
def mayAlias (g : HeapGraph) (x y : Variable) : Bool :=
  let left := g.referents x
  let right := g.referents y
  !left.isEmpty && !right.isEmpty &&
    (left.any right.contains || left.any g.isUnknown || right.any g.isUnknown)

/-- Everything that can be reached from what the variables refer to. -/
def reachable (g : HeapGraph) (roots : List Variable) : SortedSet HeapId :=
  SortedSet.ofList (explore (fun id => ((g.node? id).map fun n => FieldEdges.ids n.targets).getD [])
    g.nodes.keys (roots.flatMap fun x => (g.targets x).toList))

/-- Whether two graphs have the same known variables and the same edges.  The objects themselves
and the families are not compared. -/
def sameEdges (g h : HeapGraph) : Bool :=
  g.bindings == h.bindings && g.nodes.size == h.nodes.size &&
    g.nodes.toList.all fun e =>
      match h.node? e.1 with
      | some n => e.2.sameEdges n
      | none => false

/-! ## Changes -/

/-- Puts a node without edges at the id of an object. -/
def place (g : HeapGraph) (object : HeapObject) : HeapGraph :=
  { g with nodes := g.nodes.insert object.id (.bare object) }

/-- Adds an object.  An id that is in use must stand for the same object. -/
def addObject (g : HeapGraph) (object : HeapObject) : Except Error HeapGraph :=
  match g.node? object.id with
  | some n => if n.object = object then .ok g else .error (.heapIdCollision object.id)
  | none => .ok (g.place object)

/-- Binds a graph to a family, unless it is bound to another one already. -/
def bind? (g : HeapGraph) (family : Nat) : Option HeapGraph :=
  match g.family with
  | some bound => if bound = family then some g else none
  | none => some { g with family := some family }

/-- Records an edge of a variable at both ends. -/
def attach (g : HeapGraph) (x : Variable) (id : HeapId) : HeapGraph :=
  { g with
    nodes := g.nodes.modify id fun n => n.addVariable x
    bindings := g.bindings.insert x ((g.targets x).insert id) }

/-- Lets a variable refer to an object. -/
def pointsTo (g : HeapGraph) (x : Variable) (id : HeapId) : Except Error HeapGraph :=
  if g.contains id then .ok (g.attach x id) else .error (.heapNodeMissing id)

/-- Records an edge of a field at both ends. -/
def attachField (g : HeapGraph) (source : HeapId) (f : FieldRef) (target : HeapId) : HeapGraph :=
  { g with
    nodes := (g.nodes.modify source fun n => n.addTarget f target).modify target fun n =>
      n.addSource f source }

/-- Lets a field of an object refer to an object. -/
def pointsToField (g : HeapGraph) (source : HeapId) (f : FieldRef) (target : HeapId) :
    Except Error HeapGraph :=
  if g.contains source then
    if g.contains target then .ok (g.attachField source f target)
    else .error (.heapNodeMissing target)
  else .error (.heapNodeMissing source)

/-- Lets a known variable refer to nothing. -/
def detach (g : HeapGraph) (x : Variable) : HeapGraph :=
  match g.bindings.get? x with
  | none => g
  | some ids =>
    { g with
      nodes := ids.toList.foldl
        (fun nodes id => nodes.modify id fun n => n.dropVariable x) g.nodes
      bindings := g.bindings.insert x .empty }

/-- Forgets a variable. -/
def forget (g : HeapGraph) (x : Variable) : HeapGraph :=
  let g := g.detach x
  { g with bindings := g.bindings.erase x }

/-! ## Union -/

/-- The id to blame when graphs of different families meet: the first that both use for something
other than null, else the first that the second graph uses. -/
def familyClash (g h : HeapGraph) : HeapId :=
  let ids := h.nodes.keys.filter (· ≠ HeapId.null)
  ((ids.find? g.contains).or ids.head?).getD HeapId.null

/-- The first id that stands for different objects in two graphs. -/
def objectClash? (g h : HeapGraph) : Option HeapId :=
  (h.nodes.toList.find? fun e =>
    match g.node? e.1 with
    | some n => n.object ≠ e.2.object
    | none => false).map Prod.fst

/-- The id on which two graphs collide. -/
def collision? (g h : HeapGraph) : Option HeapId :=
  match g.family, h.family with
  | some f, some f' => if f = f' then g.objectClash? h else some (g.familyClash h)
  | _, _ => g.objectClash? h

/-- Adds the objects that are new. -/
def absorbObjects (g h : HeapGraph) : HeapGraph :=
  h.nodes.values.foldl
    (fun g n => if g.contains n.object.id then g else g.place n.object) g

/-- Adds the variables and what they refer to. -/
def absorbVariables (g h : HeapGraph) : HeapGraph :=
  h.bindings.toList.foldl
    (fun g e =>
      e.2.toList.foldl (fun g id => g.attach e.1 id)
        { g with bindings := g.bindings.insert e.1 (g.targets e.1) })
    g

/-- Adds the edges of fields. -/
def absorbFields (g h : HeapGraph) : HeapGraph :=
  h.nodes.values.foldl
    (fun g n =>
      n.targets.toList.foldl
        (fun g e => e.2.toList.foldl (fun g t => g.attachField n.object.id e.1 t) g) g)
    g

/-- Adds everything that another graph holds.  Graphs of different families, and graphs that use
an id for different objects, cannot be united. -/
def union (g h : HeapGraph) : Except Error HeapGraph :=
  match g.collision? h with
  | some id => .error (.heapIdCollision id)
  | none =>
    let bound := { g with family := g.family.or h.family }
    .ok (((bound.absorbObjects h).absorbVariables h).absorbFields h)

end HeapGraph

/-! ## New objects -/

/-- What the creation of an object leaves behind: the allocator and the graph, also when it fails,
and the id of the object. -/
structure Creation where
  ids : Allocator
  graph : HeapGraph
  result : Except Error HeapId

/-- Creates an object under a new id.  The id is used up and the graph is bound to the family of
the allocator even if the id is found to be in use. -/
def HeapGraph.create (g : HeapGraph) (ids : Allocator) (kind : ObjectKind)
    (type : Option TypeName) (offset : Option Offset) : Creation :=
  match ids.allocate with
  | .error e => ⟨ids, g, .error e⟩
  | .ok (id, ids) =>
    match g.bind? ids.family with
    | none => ⟨ids, g, .error (.heapIdCollision id)⟩
    | some g =>
      if g.contains id then ⟨ids, g, .error (.heapIdCollision id)⟩
      else ⟨ids, g.place ⟨id, kind, type, offset⟩, .ok id⟩

end MethodFlow
