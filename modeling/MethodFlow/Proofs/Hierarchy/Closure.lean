import Mathlib.Data.List.Perm.Subperm
import Mathlib.Logic.Relation
import MethodFlow.Hierarchy
import MethodFlow.Proofs.Graph.Search

/-!
# Subtypes by declaration

A universe declares, type by type, which types are the parents of which.
Everything a hierarchy answers is measured against this relation: the
ancestors of a type are what chains of declarations lead to, and a type is a
subtype of another when such a chain, possibly empty, leads from one to the
other.

When no chain leads back to where it begins, subtypes are a partial order,
and every step up leaves a type with fewer ancestors.

## Main results

* `TypeLinks.mem_closure`: the worklist finds the transitive closure of the
  links, less the type that it begins with.
* `Hierarchy.isSubtype_iff`: subtypes are chains of declarations.
* `Universe.Acyclic.size_ancestors_lt`: a proper supertype has fewer
  ancestors.
-/

namespace MethodFlow

/-! ## Sizes of sets -/

namespace SortedSet

variable {α : Type} [Ordered α] {s t : SortedSet α} {a : α}

theorem nodup_toList (s : SortedSet α) : s.toList.Nodup :=
  s.ascending.imp fun hlt heq => by simp [heq, Ordered.before_irrefl] at hlt

theorem size_le (h : ∀ x ∈ s, x ∈ t) : s.size ≤ t.size :=
  (List.subperm_of_subset s.nodup_toList h).length_le

theorem size_lt (h : ∀ x ∈ s, x ∈ t) (ha : a ∈ t) (hnot : a ∉ s) : s.size < t.size := by
  have hnodup : (a :: s.toList).Nodup := List.nodup_cons.2 ⟨hnot, s.nodup_toList⟩
  refine (List.subperm_of_subset hnodup fun x hx => ?_).length_le
  rcases List.mem_cons.1 hx with rfl | hx
  · exact ha
  · exact h x hx

end SortedSet

/-! ## The closure of links -/

namespace TypeLinks

variable {l : TypeLinks} {a b s t : TypeName}

theorem mem_linked_add : b ∈ linked (l.add s t) a ↔ (a = s ∧ b = t) ∨ b ∈ linked l a := by
  have hget : (l.add s t).get? a =
      if a = s then some ((linked l s).insert t) else l.get? a :=
    SortedMap.get?_insert _ _ _ _
  rw [linked, hget]
  by_cases ha : a = s
  · subst ha
    simp
  · simp [ha, linked]

private theorem mem_foldl_union {sets : List (SortedSet TypeName)} {start : SortedSet TypeName} :
    b ∈ sets.foldl SortedSet.union start ↔ b ∈ start ∨ ∃ set ∈ sets, b ∈ set := by
  induction sets generalizing start with
  | nil => simp
  | cons set sets ih => rw [List.foldl_cons, ih, SortedSet.mem_union, or_assoc]; simp

theorem mem_targets (h : b ∈ linked l a) : b ∈ targets l := by
  unfold linked at h
  cases hget : l.get? a with
  | none => simp [hget] at h
  | some set =>
      rw [hget] at h
      have hvalue : set ∈ l.values :=
        List.mem_map.2 ⟨(a, set), SortedMap.get?_eq_some_iff.1 hget, rfl⟩
      exact mem_foldl_union.2 (.inr ⟨set, hvalue, h⟩)

/-- A chain of links ends with a type that some type is linked to. -/
theorem mem_targets_of_chain (h : Relation.TransGen (fun s t => t ∈ linked l s) a b) :
    b ∈ targets l := by
  obtain ⟨s, -, hlink⟩ := Relation.TransGen.tail'_iff.1 h
  exact mem_targets hlink

/-- The closure is what chains of links lead to, the type itself
excepted. -/
theorem mem_closure :
    b ∈ closure l a ↔ b ≠ a ∧ Relation.TransGen (fun s t => t ∈ linked l s) a b := by
  rw [closure, SortedSet.mem_erase, SortedSet.mem_ofList, mem_explore, and_comm]
  refine and_congr_right' ⟨fun h => ?_, fun h => ?_⟩
  · induction h with
    | root _ hwork => exact .single hwork
    | step _ _ hnext ih => exact .tail ih hnext
  · induction h with
    | single hlink => exact .root (mem_targets hlink) hlink
    | tail _ hlink ih => exact .step ih (mem_targets hlink) hlink

end TypeLinks

/-! ## Declarations -/

theorem Universe.mem_toList_of_get? {u : Universe} {name : TypeName} {t : TypeDef}
    (h : u.get? name = some t) : t ∈ u.toList :=
  List.mem_map.2 ⟨(name, t), SortedMap.get?_eq_some_iff.1 h, rfl⟩

/-- Some type of the universe has the name `child` and names `parent` as its
base or among its interfaces. -/
def Universe.Declares (u : Universe) (child parent : TypeName) : Prop :=
  ∃ d ∈ u.toList, d.name = child ∧ parent ∈ d.base.toList ++ d.interfaces

/-- A chain of declarations, possibly empty, leads from one type to the
other. -/
def Universe.Under (u : Universe) (sub sup : TypeName) : Prop :=
  Relation.ReflTransGen u.Declares sub sup

namespace Hierarchy

variable {u : Universe} {a b : TypeName}

private theorem mem_linked_links (h : Hierarchy) (child : TypeName) (parents : List TypeName) :
    b ∈ TypeLinks.linked (parents.foldl (fun h parent => h.link child parent) h).supertypes a ↔
      (a = child ∧ b ∈ parents) ∨ b ∈ TypeLinks.linked h.supertypes a := by
  induction parents generalizing h with
  | nil => simp
  | cons parent parents ih =>
      rw [List.foldl_cons, ih, link, TypeLinks.mem_linked_add, ← or_assoc, List.mem_cons]
      refine or_congr_left ?_
      constructor
      · rintro (⟨ha, hb⟩ | ⟨ha, hb⟩)
        · exact ⟨ha, .inr hb⟩
        · exact ⟨ha, .inl hb⟩
      · rintro ⟨ha, hb | hb⟩
        · exact .inr ⟨ha, hb⟩
        · exact .inl ⟨ha, hb⟩

private theorem mem_linked_addType (h : Hierarchy) (d : TypeDef) :
    b ∈ TypeLinks.linked (h.addType d).supertypes a ↔
      (a = d.name ∧ b ∈ d.base.toList ++ d.interfaces) ∨
        b ∈ TypeLinks.linked h.supertypes a := by
  unfold addType
  rw [mem_linked_links]
  split
  · exact Iff.rfl
  · exact Iff.rfl

/-- The parents of a type are those that are declared. -/
theorem mem_directSupertypes : b ∈ (ofUniverse u).directSupertypes a ↔ u.Declares a b := by
  have hfold : ∀ (types : List TypeDef) (h : Hierarchy),
      b ∈ TypeLinks.linked (types.foldl addType h).supertypes a ↔
        (∃ d ∈ types, d.name = a ∧ b ∈ d.base.toList ++ d.interfaces) ∨
          b ∈ TypeLinks.linked h.supertypes a := by
    intro types
    induction types with
    | nil => simp
    | cons d types ih =>
        intro h
        rw [List.foldl_cons, ih, mem_linked_addType, ← or_assoc]
        refine or_congr_left ?_
        simp only [List.mem_cons, exists_eq_or_imp, @eq_comm _ a d.name]
        exact or_comm
  exact (hfold u.toList empty).trans (or_iff_left (SortedSet.not_mem_empty b))

theorem links_eq :
    (fun s t => t ∈ (ofUniverse u).directSupertypes s) = u.Declares := by
  funext s t
  exact propext mem_directSupertypes

theorem mem_ancestors :
    b ∈ (ofUniverse u).ancestors a ↔ b ≠ a ∧ Relation.TransGen u.Declares a b := by
  rw [← links_eq]
  exact TypeLinks.mem_closure

/-- A subtype is a type from which a chain of links leads up. -/
theorem isSubtype_iff_chain {h : Hierarchy} :
    h.isSubtype a b = true ↔
      Relation.ReflTransGen (fun s t => t ∈ h.directSupertypes s) a b := by
  rw [isSubtype, Bool.or_eq_true, beq_iff_eq, SortedSet.contains_iff_mem, ancestors,
    TypeLinks.mem_closure, Relation.reflTransGen_iff_eq_or_transGen]
  constructor
  · rintro (rfl | ⟨-, hchain⟩)
    · exact .inl rfl
    · exact .inr hchain
  · rintro (rfl | hchain)
    · exact .inl rfl
    · by_cases hab : a = b
      · exact .inl hab
      · exact .inr ⟨Ne.symm hab, hchain⟩

theorem isSubtype_refl (h : Hierarchy) (a : TypeName) : h.isSubtype a a = true :=
  isSubtype_iff_chain.2 .refl

theorem isSubtype_trans {h : Hierarchy} {c : TypeName} (hab : h.isSubtype a b = true)
    (hbc : h.isSubtype b c = true) : h.isSubtype a c = true :=
  isSubtype_iff_chain.2 ((isSubtype_iff_chain.1 hab).trans (isSubtype_iff_chain.1 hbc))

/-- In the hierarchy of a universe the links are its declarations. -/
theorem isSubtype_iff : (ofUniverse u).isSubtype a b = true ↔ u.Under a b := by
  rw [isSubtype_iff_chain, links_eq]
  rfl

end Hierarchy

/-! ## Universes without cycles -/

namespace Universe

variable {u : Universe} {a b : TypeName}

/-- No chain of declarations leads back to where it begins. -/
def Acyclic (u : Universe) : Prop := ∀ t, ¬ Relation.TransGen u.Declares t t

/-- Declarations that lead up a finite scale never lead back. -/
theorem acyclic_of_rank (rank : TypeName → Nat)
    (h : ∀ d ∈ u.toList, ∀ parent ∈ d.base.toList ++ d.interfaces, rank parent < rank d.name) :
    u.Acyclic := by
  have hchain : ∀ {a b}, Relation.TransGen u.Declares a b → rank b < rank a := by
    intro a b hab
    induction hab with
    | single hlink =>
        obtain ⟨d, hd, rfl, hparent⟩ := hlink
        exact h d hd _ hparent
    | tail _ hlink ih =>
        obtain ⟨d, hd, rfl, hparent⟩ := hlink
        exact Nat.lt_trans (h d hd _ hparent) ih
  exact fun t hcycle => Nat.lt_irrefl _ (hchain hcycle)

theorem Acyclic.antisymm (h : u.Acyclic) (hab : u.Under a b) (hba : u.Under b a) : a = b := by
  rcases Relation.reflTransGen_iff_eq_or_transGen.1 hab with heq | hchain
  · exact heq.symm
  · exact absurd (hchain.trans_left hba) (h a)

/-- A proper supertype has fewer ancestors: it is one of those it takes
along. -/
theorem Acyclic.size_ancestors_lt (h : u.Acyclic) (hab : u.Under a b) (hne : a ≠ b) :
    ((Hierarchy.ofUniverse u).ancestors b).size <
      ((Hierarchy.ofUniverse u).ancestors a).size := by
  have hchain : Relation.TransGen u.Declares a b :=
    (Relation.reflTransGen_iff_eq_or_transGen.1 hab).resolve_left (Ne.symm hne)
  refine SortedSet.size_lt (a := b) (fun t ht => ?_) ?_ ?_
  · obtain ⟨-, hup⟩ := Hierarchy.mem_ancestors.1 ht
    have hlong := hchain.trans hup
    refine Hierarchy.mem_ancestors.2 ⟨fun hta => h a ?_, hlong⟩
    rwa [hta] at hlong
  · exact Hierarchy.mem_ancestors.2 ⟨Ne.symm hne, hchain⟩
  · exact fun hmem => (Hierarchy.mem_ancestors.1 hmem).1 rfl

end Universe

/-- Ancestors are parents of some type. -/
theorem Hierarchy.size_ancestors_le (h : Hierarchy) (t : TypeName) :
    (h.ancestors t).size ≤ (TypeLinks.targets h.supertypes).size := by
  refine SortedSet.size_le fun b hb => ?_
  obtain ⟨-, hchain⟩ := TypeLinks.mem_closure.1 hb
  exact TypeLinks.mem_targets_of_chain hchain

end MethodFlow
