import MethodFlow.Data.SortedSet
import MethodFlow.Graph.Search
import MethodFlow.Log
import MethodFlow.Model.Universe

/-!
# Class hierarchies

A type's parents are its base and its interfaces, whether or not the universe holds them.  The
hierarchy keeps the links in both directions and answers for their transitive closure; cycles are
allowed, and no type counts among its own ancestors or descendants.
-/

namespace MethodFlow

/-- Links from a type to a set of types. -/
abbrev TypeLinks := SortedMap TypeName (SortedSet TypeName)

namespace TypeLinks

/-- The types that a type is linked to. -/
def linked (l : TypeLinks) (t : TypeName) : SortedSet TypeName := (l.get? t).getD .empty

/-- Adds a link. -/
def add (l : TypeLinks) (source target : TypeName) : TypeLinks :=
  l.insert source ((linked l source).insert target)

/-- All types that some type is linked to. -/
def targets (l : TypeLinks) : SortedSet TypeName :=
  l.values.foldl SortedSet.union .empty

/-- Everything that links lead to from a type, the type itself excepted. -/
def closure (l : TypeLinks) (t : TypeName) : SortedSet TypeName :=
  (SortedSet.ofList
    (explore (fun s => (linked l s).toList) (targets l).toList (linked l t).toList)).erase t

end TypeLinks

/-- The links between the types of a universe and their parents. -/
structure Hierarchy where
  /-- The types that name a type as parent. -/
  subtypes : TypeLinks
  /-- The parents of a type. -/
  supertypes : TypeLinks
  /-- The types that the universe declares as interfaces. -/
  interfaces : SortedSet TypeName
  deriving DecidableEq

namespace Hierarchy

/-- The hierarchy without types. -/
def empty : Hierarchy := ⟨.empty, .empty, .empty⟩

/-- Records that `child` names `parent` as parent. -/
def link (h : Hierarchy) (child parent : TypeName) : Hierarchy :=
  { h with subtypes := TypeLinks.add h.subtypes parent child
           supertypes := TypeLinks.add h.supertypes child parent }

/-- Records a type with its parents. -/
def addType (h : Hierarchy) (t : TypeDef) : Hierarchy :=
  let h := if t.isInterface then { h with interfaces := h.interfaces.insert t.name } else h
  (t.base.toList ++ t.interfaces).foldl (fun h parent => h.link t.name parent) h

/-- The hierarchy of a universe. -/
def ofUniverse (u : Universe) : Hierarchy := u.toList.foldl addType empty

/-- The types that name `t` as parent. -/
def directSubtypes (h : Hierarchy) (t : TypeName) : SortedSet TypeName :=
  TypeLinks.linked h.subtypes t

/-- The parents of `t`. -/
def directSupertypes (h : Hierarchy) (t : TypeName) : SortedSet TypeName :=
  TypeLinks.linked h.supertypes t

/-- All types below `t`. -/
def descendants (h : Hierarchy) (t : TypeName) : SortedSet TypeName :=
  TypeLinks.closure h.subtypes t

/-- All types above `t`. -/
def ancestors (h : Hierarchy) (t : TypeName) : SortedSet TypeName :=
  TypeLinks.closure h.supertypes t

/-- Whether `sub` is `sup` or lies below it. -/
def isSubtype (h : Hierarchy) (sub sup : TypeName) : Bool :=
  sub == sup || (h.ancestors sub).contains sup

/-- Whether the universe declares `t` as an interface. -/
def isInterface (h : Hierarchy) (t : TypeName) : Bool := h.interfaces.contains t

/-- The number of types that some type names as parent. -/
def parentCount (h : Hierarchy) : Nat := h.subtypes.size

/-- What the computation of a hierarchy says about itself. -/
def event (h : Hierarchy) (u : Universe) : LogEvent :=
  ⟨.debug, s!"class hierarchy: {u.size} types, {h.parentCount} with subtypes, "
    ++ s!"{h.interfaces.size} interfaces"⟩

end Hierarchy

/-- A universe whose hierarchy is computed when it is first asked for. -/
structure HierarchyStudy where
  world : Universe
  known : Option Hierarchy

namespace HierarchyStudy

/-- Nothing computed yet. -/
def new (u : Universe) : HierarchyStudy := ⟨u, none⟩

/-- The hierarchy, with the study that remembers it and the event of a first computation. -/
def analyze (s : HierarchyStudy) : Hierarchy × HierarchyStudy × List LogEvent :=
  match s.known with
  | some h => (h, s, [])
  | none =>
    let h := Hierarchy.ofUniverse s.world
    (h, { s with known := some h }, [h.event s.world])

/-- The hierarchy, computed now if need be. -/
def hierarchy (s : HierarchyStudy) : Hierarchy :=
  match s.known with
  | some h => h
  | none => Hierarchy.ofUniverse s.world

end HierarchyStudy

end MethodFlow
