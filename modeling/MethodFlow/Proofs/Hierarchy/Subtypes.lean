import Mathlib.Logic.Relation
import MethodFlow.Proofs.Data.Folds
import MethodFlow.Proofs.Graph.Worklists
import MethodFlow.Proofs.Hierarchy.Closure

/-!
# Subtypes and supertypes

A hierarchy keeps every declared link twice, once with the parent and once
with the child, and closes the two tables by themselves.  What makes the two
answers agree is that the tables mirror each other, and they do so because
every change enters a link into both.  So a type lies below another exactly
when the other lies above it, on cycles too, and although each closure leaves
out the type that it begins with.

The closure takes its types from a pool, everything that any type is linked
to, and this pool is what shows that it ends.  A search that knows no pool
does the same: it takes a type from its worklist and, if the type is new, puts
everything the type is linked to on the list.  A `LinkSearch` is this search
one step at a time.  Its steps are those of a `Worklist`, so whatever the links
are the search ends, and it ends with the closure.

## Main results

* `TypeLinks.runs_closure`: the search for linked types ends with the closure.
* `Hierarchy.mirrored_ofUniverse`: the two tables mirror each other.
* `Hierarchy.closure_exact`: descendants, ancestors and subtypes against the
  chains of declarations.
-/

namespace MethodFlow

/-! ## Searching without a pool -/

/-- A search for linked types under way: the types found, and those still to
be looked at, the next one first. -/
structure LinkSearch where
  found : SortedSet TypeName
  work : List TypeName

namespace TypeLinks

variable {l : TypeLinks} {s : LinkSearch} {found rest : List TypeName} {a b t : TypeName}

/-- Looks at the next type.  If it is new, the types that it is linked to come
next, the last of them first. -/
def advance? (l : TypeLinks) (s : LinkSearch) : Option LinkSearch :=
  match s.work with
  | [] => none
  | a :: rest =>
    if a ∈ s.found then some ⟨s.found, rest⟩
    else some ⟨s.found.insert a, (linked l a).toList.reverse ++ rest⟩

/-- The search leads from one state to the other. -/
def Runs (l : TypeLinks) : LinkSearch → LinkSearch → Prop :=
  Relation.ReflTransGen fun s s' => advance? l s = some s'

/-- The search that begins with the types that `t` is linked to. -/
def searchFrom (l : TypeLinks) (t : TypeName) : LinkSearch :=
  ⟨.empty, (linked l t).toList.reverse⟩

/-- What a search for linked types has found, and has still to look at. -/
structure Shows (l : TypeLinks) (s : LinkSearch) (w : Worklist TypeName) : Prop where
  found : ∀ b, b ∈ s.found ↔ b ∈ w.found
  work : s.work = w.work
  pool : ∀ b ∈ w.work, b ∈ targets l

theorem shows_searchFrom (l : TypeLinks) (t : TypeName) :
    Shows l (searchFrom l t) ⟨[], (linked l t).toList.reverse⟩ :=
  ⟨fun b => iff_of_false (SortedSet.not_mem_empty b) List.not_mem_nil, rfl,
    fun _ hb => mem_targets (List.mem_reverse.1 hb)⟩

/-- To look at a type is a step of a search that keeps what it has found. -/
theorem Shows.step (hs : Shows l s ⟨found, a :: rest⟩) :
    ∃ s' w', advance? l s = some s' ∧ Shows l s' w' ∧
      Worklist.Step (fun s => (linked l s).toList) (targets l).toList ⟨found, a :: rest⟩ w' := by
  have hrest : ∀ b ∈ rest, b ∈ targets l := fun b hb => hs.pool b (List.mem_cons_of_mem a hb)
  by_cases ha : a ∈ s.found
  · have hadvance : advance? l s = some ⟨s.found, rest⟩ := by
      simp only [advance?, hs.work, if_pos ha]
    exact ⟨_, ⟨found, rest⟩, hadvance, ⟨hs.found, rfl, hrest⟩, .skip fun _ => (hs.found a).1 ha⟩
  · have hadvance : advance? l s =
        some ⟨s.found.insert a, (linked l a).toList.reverse ++ rest⟩ := by
      simp only [advance?, hs.work, if_neg ha]
    refine ⟨_, ⟨a :: found, (linked l a).toList.reverse ++ rest⟩, hadvance,
      ⟨fun b => ?_, rfl, fun b hb => ?_⟩, .find (hs.pool a List.mem_cons_self)
        (fun hmem => ha ((hs.found a).2 hmem)) (fun b hb => List.mem_reverse.1 hb)
        fun b hb _ => .inr (List.mem_append_left rest (List.mem_reverse.2 hb))⟩
    · rw [SortedSet.mem_insert, hs.found, List.mem_cons]
    · rcases List.mem_append.1 hb with hb | hb
      · exact mem_targets (List.mem_reverse.1 hb)
      · exact hrest b hb

/-- **The search ends with the closure**, but for the type that it begins
with. -/
theorem runs_closure (l : TypeLinks) (t : TypeName) :
    ∃ found, Runs l (searchFrom l t) ⟨found, []⟩ ∧ found.erase t = closure l t := by
  obtain ⟨⟨found, _⟩, list, hrun, ⟨hfound, rfl, -⟩, hend⟩ := Worklist.Searching.exists_end
    (fun s found a rest hs _ => Shows.step hs)
    (.start fun b _ => List.mem_reverse) (shows_searchFrom l t)
  refine ⟨found, hrun, congrArg (SortedSet.erase · t) (SortedSet.ext_mem fun b => ?_)⟩
  rw [hfound, hend.mem_found, SortedSet.mem_ofList, mem_explore]

end TypeLinks

/-- Some type of the universe has the name `t` and is an interface. -/
def Universe.DeclaresInterface (u : Universe) (t : TypeName) : Prop :=
  ∃ d ∈ u.toList, d.name = t ∧ d.isInterface = true

/-! ## The two tables -/

namespace Hierarchy

variable {u : Universe} {h : Hierarchy} {a b t : TypeName}

/-- A link is in one table exactly when it is in the other. -/
def Mirrored (h : Hierarchy) : Prop :=
  ∀ a b, b ∈ h.directSubtypes a ↔ a ∈ h.directSupertypes b

theorem mirrored_empty : Mirrored empty := fun a b =>
  iff_of_false (SortedSet.not_mem_empty b) (SortedSet.not_mem_empty a)

theorem Mirrored.link (hm : h.Mirrored) (child parent : TypeName) :
    (h.link child parent).Mirrored := by
  intro a b
  have hsub : b ∈ (h.link child parent).directSubtypes a ↔
      (a = parent ∧ b = child) ∨ b ∈ h.directSubtypes a := TypeLinks.mem_linked_add
  have hsuper : a ∈ (h.link child parent).directSupertypes b ↔
      (b = child ∧ a = parent) ∨ a ∈ h.directSupertypes b := TypeLinks.mem_linked_add
  rw [hsub, hsuper, hm a b, and_comm]

theorem Mirrored.addType (hm : h.Mirrored) (d : TypeDef) : (h.addType d).Mirrored := by
  refine List.foldlRecOn _ _ ?_ fun h hm parent _ => hm.link d.name parent
  split
  · exact hm
  · exact hm

/-- The tables of a universe mirror each other. -/
theorem mirrored_ofUniverse (u : Universe) : (ofUniverse u).Mirrored :=
  List.foldlRecOn _ _ mirrored_empty fun _ hm d _ => hm.addType d

theorem mem_directSubtypes : b ∈ (ofUniverse u).directSubtypes a ↔ u.Declares b a :=
  (mirrored_ofUniverse u a b).trans mem_directSupertypes

theorem mem_descendants :
    b ∈ (ofUniverse u).descendants a ↔ b ≠ a ∧ Relation.TransGen u.Declares b a := by
  have hlinks : (fun s t => t ∈ TypeLinks.linked (ofUniverse u).subtypes s) =
      Function.swap u.Declares := by
    funext s t
    exact propext mem_directSubtypes
  rw [descendants, TypeLinks.mem_closure, hlinks, Relation.transGen_swap]

/-- A type lies below another exactly when the other lies above it. -/
theorem mem_descendants_iff_mem_ancestors :
    b ∈ (ofUniverse u).descendants a ↔ a ∈ (ofUniverse u).ancestors b := by
  rw [mem_descendants, mem_ancestors, ne_comm]

theorem isSubtype_iff_mem_descendants :
    (ofUniverse u).isSubtype b a = true ↔ b = a ∨ b ∈ (ofUniverse u).descendants a := by
  rw [isSubtype, Bool.or_eq_true, beq_iff_eq, SortedSet.contains_iff_mem,
    mem_descendants_iff_mem_ancestors]

/-! ## Interfaces -/

private theorem interfaces_links (h : Hierarchy) (child : TypeName) (parents : List TypeName) :
    (parents.foldl (fun h parent => h.link child parent) h).interfaces = h.interfaces := by
  induction parents generalizing h with
  | nil => rfl
  | cons parent parents ih => exact ih (h.link child parent)

private theorem mem_interfaces_addType (h : Hierarchy) (d : TypeDef) :
    t ∈ (h.addType d).interfaces ↔ t ∈ h.interfaces ∨ d.name = t ∧ d.isInterface = true := by
  rw [addType, interfaces_links]
  split
  · next hd => simp [hd, eq_comm, or_comm]
  · next hd => simp [hd]

theorem isInterface_iff : (ofUniverse u).isInterface t = true ↔ u.DeclaresInterface t := by
  rw [isInterface, SortedSet.contains_iff_mem, ofUniverse,
    @foldl_iff _ _ Hierarchy.addType (fun _ => True) (t ∈ ·.interfaces) _ u.toList
      (fun _ _ _ _ => trivial) (fun h d _ _ => mem_interfaces_addType h d) empty trivial]
  exact or_iff_right (SortedSet.not_mem_empty t)

instance (u : Universe) (t : TypeName) : Decidable (u.DeclaresInterface t) :=
  decidable_of_iff _ isInterface_iff

instance (u : Universe) (sub sup : TypeName) : Decidable (u.Under sub sup) :=
  decidable_of_iff _ isSubtype_iff

/-! ## All answers together -/

/-- **The hierarchy answers for the chains of declarations**, in every universe,
whether or not its types form cycles, name themselves as parents or name types
that it does not hold.  The types below a type are the others from which a chain
leads to it, and it lies above exactly these.  To be a subtype is reflexive and
transitive, and means to be the type or to lie below it.  In both directions the
search by worklist comes to an end, and what it has found, less the type that it
began with, is the answer. -/
theorem closure_exact (u : Universe) :
    (∀ a b, b ∈ (ofUniverse u).descendants a ↔ b ≠ a ∧ Relation.TransGen u.Declares b a) ∧
      (∀ a b, b ∈ (ofUniverse u).descendants a ↔ a ∈ (ofUniverse u).ancestors b) ∧
      (∀ a, (ofUniverse u).isSubtype a a = true) ∧
      (∀ a b c, (ofUniverse u).isSubtype a b = true → (ofUniverse u).isSubtype b c = true →
        (ofUniverse u).isSubtype a c = true) ∧
      (∀ a b, (ofUniverse u).isSubtype b a = true ↔
        b = a ∨ b ∈ (ofUniverse u).descendants a) ∧
      ∀ t,
        (∃ found, TypeLinks.Runs (ofUniverse u).subtypes
            (TypeLinks.searchFrom (ofUniverse u).subtypes t) ⟨found, []⟩ ∧
          found.erase t = (ofUniverse u).descendants t) ∧
        ∃ found, TypeLinks.Runs (ofUniverse u).supertypes
            (TypeLinks.searchFrom (ofUniverse u).supertypes t) ⟨found, []⟩ ∧
          found.erase t = (ofUniverse u).ancestors t :=
  ⟨fun _ _ => mem_descendants, fun _ _ => mem_descendants_iff_mem_ancestors,
    fun a => isSubtype_refl _ a, fun _ _ _ hab hbc => isSubtype_trans hab hbc,
    fun _ _ => isSubtype_iff_mem_descendants,
    fun t => ⟨TypeLinks.runs_closure _ t, TypeLinks.runs_closure _ t⟩⟩

/-- Types that name each other and themselves as parents, and an interface that
is only named. -/
def tangle : Universe :=
  .ofList
    [⟨"A", .classType, some "B", ["I"], []⟩, ⟨"B", .classType, some "A", [], []⟩,
      ⟨"S", .classType, some "S", ["A"], []⟩]

/-- The search from a type on a cycle comes back to this type, which is no
descendant of itself. -/
theorem closure_exact_tangle :
    (ofUniverse tangle).isSubtype "S" "A" = true ∧ (ofUniverse tangle).isSubtype "A" "I" = true ∧
      (ofUniverse tangle).isSubtype "S" "I" = true ∧
      Relation.TransGen tangle.Declares "S" "I" ∧ "I" ∈ (ofUniverse tangle).ancestors "S" ∧
      ∃ found, TypeLinks.Runs (ofUniverse tangle).subtypes
          (TypeLinks.searchFrom (ofUniverse tangle).subtypes "A") ⟨found, []⟩ ∧
        (found.erase "A").toList = ["B", "S"] := by
  obtain ⟨hchain, hmirror, -, htrans, -, hsearch⟩ := closure_exact tangle
  have hsub : (ofUniverse tangle).isSubtype "S" "A" = true := by decide +kernel
  have hsup : (ofUniverse tangle).isSubtype "A" "I" = true := by decide +kernel
  have hmem : "S" ∈ (ofUniverse tangle).descendants "I" := by decide +kernel
  obtain ⟨found, hrun, hfound⟩ := (hsearch "A").1
  refine ⟨hsub, hsup, htrans _ _ _ hsub hsup, ((hchain _ _).1 hmem).2, (hmirror _ _).1 hmem,
    found, hrun, ?_⟩
  rw [hfound]
  decide +kernel

end Hierarchy

end MethodFlow
