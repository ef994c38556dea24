import MethodFlow.Flow.Analysis
import MethodFlow.Heap.Graph

/-!
# The points-to analysis

The facts are points-to graphs.  Every instruction that brings an object into being, or one of
unknown origin into view, has one abstract object, which is made when the analysis first meets
the instruction and is the same in all facts from then on.

A field of an object of unknown origin may refer to anything, so loading it also yields an object
of unknown origin, and the field is known to refer to it from then on.
-/

namespace MethodFlow

/-- The abstract objects made so far, by the offset of their instruction. -/
structure HeapSites where
  ids : Allocator
  objects : SortedMap Offset HeapObject

namespace HeapSites

/-- The object of an instruction, made now if it has none yet. -/
def site (s : HeapSites) (offset : Offset) (kind : ObjectKind) (type : Option TypeName) :
    Except Error (HeapObject × HeapSites) :=
  match s.objects.get? offset with
  | some object => .ok (object, s)
  | none => do
    let (id, ids) ← s.ids.allocate
    let object : HeapObject := ⟨id, kind, type, some offset⟩
    return (object, ⟨ids, s.objects.insert offset object⟩)

end HeapSites

namespace PointsTo

/-- A fact together with the objects made so far. -/
abbrev Step := HeapGraph × HeapSites

/-- Lets a variable refer to exactly the given objects. -/
def assign (g : HeapGraph) (dest : Variable) (ids : List HeapId) : Except Error HeapGraph :=
  ids.foldlM (fun g id => g.pointsTo dest id) (g.detach dest)

/-- Lets a variable refer to the object of an instruction. -/
def assignSite (s : Step) (dest : Variable) (offset : Offset) (kind : ObjectKind)
    (type : Option TypeName) : Except Error Step := do
  let (object, sites) ← s.2.site offset kind type
  let g ← s.1.addObject object
  return (← assign g dest [object.id], sites)

/-- Makes sure that a field of an object of unknown origin refers to the object of the
instruction that loads it. -/
def openField (offset : Offset) (dest : Variable) (f : FieldRef) (s : Step) (base : HeapId) :
    Except Error Step := do
  if s.1.isUnknown base then
    let (object, sites) ← s.2.site offset .unknown dest.type
    let g ← s.1.addObject object
    return (← g.pointsToField base f object.id, sites)
  else return s

/-- Whether an id stands for null or for nothing. -/
def isNullId (g : HeapGraph) (id : HeapId) : Bool := ((g.node? id).map HeapNode.isNull).getD true

/-- Lets a variable refer to what a field of the objects of another variable may refer to. -/
def load (s : Step) (offset : Offset) (dest base : Variable) (f : FieldRef) :
    Except Error Step := do
  let bases := (s.1.targets base).toList.filter fun id => !isNullId s.1 id
  let (g, sites) ← bases.foldlM (openField offset dest f) s
  let loaded := SortedSet.ofList (bases.flatMap fun id => (g.fieldTargets id f).toList)
  return (← assign g dest loaded.toList, sites)

/-- Lets a field of the objects of a variable also refer to the objects of another variable. -/
def store (g : HeapGraph) (base : Variable) (f : FieldRef) (value : Variable) :
    Except Error HeapGraph :=
  let values := (g.targets value).toList
  (g.referents base).foldlM
    (fun g b => values.foldlM (fun g v => g.pointsToField b f v) g) g

/-- The fact after an instruction. -/
def apply (s : Step) (i : Instruction) : Except Error Step :=
  match i.op with
  | .createObject dest type _ => assignSite s dest i.offset .object (some type)
  | .createArray dest elementType => assignSite s dest i.offset .object (some (elementType ++ "[]"))
  | .loadNull dest => do return (← assign s.1 dest [HeapId.null], s.2)
  | .copy dest source => do return (← assign s.1 dest (s.1.targets source).toList, s.2)
  | .loadField dest object field => load s i.offset dest object field
  | .loadElement dest array => load s i.offset dest array FieldRef.elements
  | .storeField object field value => do return (← store s.1 object field value, s.2)
  | .storeElement array value => do return (← store s.1 array FieldRef.elements value, s.2)
  | .loadStaticField dest _ => assignSite s dest i.offset .unknown dest.type
  | .call (some dest) _ _ _ => assignSite s dest i.offset .unknown dest.type
  | op =>
    match op.defined with
    | some dest => .ok (s.1.detach dest, s.2)
    | none => .ok s

/-- The union of the facts of several paths. -/
def join (family : Nat) : List HeapGraph → Except Error HeapGraph
  | [] => .ok (.ofFamily family)
  | first :: rest => rest.foldlM HeapGraph.union first

/-- Adds a parameter, which refers to an object of unknown origin of its own. -/
def addParameter (s : HeapGraph × Allocator) (x : Variable) :
    Except Error (HeapGraph × Allocator) := do
  let made := s.1.create s.2 .unknown x.type none
  let id ← made.result
  return (← made.graph.pointsTo x id, made.ids)

/-- The fact at the entry of a method. -/
def entry (parameters : List Variable) (ids : Allocator) :
    Except Error (HeapGraph × Allocator) :=
  parameters.foldlM addParameter (.ofFamily ids.family, ids)

/-- The points-to analysis of a graph with the given fact at its entry. -/
def analysis (c : Cfg) (family : Nat) (start : HeapGraph) : Analysis HeapSites HeapGraph where
  name := "points-to"
  direction := .forward
  boundary := start
  initial := .ofFamily family
  join := join family
  transfer sites n fact := (c.codeOf n).foldlM apply (fact, sites)
  same := HeapGraph.sameEdges

/-- Runs the points-to analysis of a method with the given parameters. -/
def run (c : Cfg) (parameters : List Variable) (limit : Nat) (ids : Allocator) :
    Except Error (Analysis HeapSites HeapGraph × Analysis.Run HeapSites HeapGraph) := do
  let (start, ids) ← entry parameters ids
  let a := analysis c ids.family start
  return (a, a.run c limit ⟨ids, .empty⟩)

/-- Solves the points-to analysis of a method with the given parameters. -/
def solve (c : Cfg) (parameters : List Variable) (config : Config) (ids : Allocator) :
    Except Error (Solution HeapSites HeapGraph) := do
  let (start, ids) ← entry parameters ids
  (analysis c ids.family start).solve c config ⟨ids, .empty⟩

end PointsTo

/-- The fact when control reaches the exit. -/
def Solution.heapAtExit? (s : Solution HeapSites HeapGraph) : Option HeapGraph := s.input? Cfg.exit

end MethodFlow
