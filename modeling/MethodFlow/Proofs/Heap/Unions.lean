import MethodFlow.Proofs.Heap.Failures

/-!
# Unions of points-to graphs

Whether two graphs can be united depends on two things only: their families,
as far as they are bound to one, and the objects of the ids that both use.
What comes out is what either graph holds.

Both facts carry over to any number of graphs.  A graph that has taken in a
list of others is compatible with one more exactly when each of them is, so
the order in which graphs are united matters neither for the outcome nor for
whether there is one.  It does not even matter which graph the family comes
from: a union passes it on to graphs that had none, and from then on stands
for all of them.

## Main results

* `HeapGraph.exists_union_iff`: which graphs can be united.
* `HeapGraph.union_exact`: what fails, and what a union holds.
* `HeapGraph.Unites.compatible_iff`, `HeapGraph.Unites.union`: what one more
  graph adds to a union of many.
* `PointsTo.join_reordered`: facts can be joined in any order, and joining one
  again changes nothing.
-/

namespace MethodFlow

namespace HeapGraph

variable {g h u w : HeapGraph} {l l' rest : List HeapGraph}

/-! ## Two graphs -/

/-- **Compatible graphs can be united, and no others.** -/
theorem exists_union_iff : (∃ u, g.union h = .ok u) ↔ g.Compatible h := by
  rw [← collision?_eq_none_iff, union]
  cases g.collision? h with
  | none => exact ⟨fun _ => rfl, fun _ => ⟨_, rfl⟩⟩
  | some id => simp

theorem exists_error_iff : (∃ e, g.union h = .error e) ↔ ¬ g.Compatible h := by
  rw [← exists_union_iff]
  cases g.union h <;> simp

theorem error_of_union {e : Error} (he : g.union h = .error e) : ∃ id, e = .heapIdCollision id := by
  unfold union at he
  split at he
  · next id _ =>
    cases he
    exact ⟨id, rfl⟩
  · cases he

/-- Different objects of one id differ in what the id does not tell. -/
private theorem ne_iff_of_id {a b : HeapObject} (hid : a.id = b.id) :
    a ≠ b ↔ a.kind ≠ b.kind ∨ a.type ≠ b.type ∨ a.offset ≠ b.offset := by
  cases a
  cases b
  simp only [ne_eq, HeapObject.mk.injEq] at hid ⊢
  tauto

theorem not_compatible_iff (hg : g.Keyed) (hh : h.Keyed) :
    ¬ g.Compatible h ↔
      (∃ a b, g.family = some a ∧ h.family = some b ∧ a ≠ b) ∨
        ∃ id a b, g.object? id = some a ∧ h.object? id = some b ∧
          (a.kind ≠ b.kind ∨ a.type ≠ b.type ∨ a.offset ≠ b.offset) := by
  constructor
  · intro hnot
    by_contra hnone
    rw [not_or] at hnone
    refine hnot ⟨fun a b ha hb => ?_, fun id a b ha hb => ?_⟩
    · by_contra hne
      exact hnone.1 ⟨a, b, ha, hb, hne⟩
    · by_contra hne
      have hid : a.id = b.id := (hg id a ha).trans (hh id b hb).symm
      exact hnone.2 ⟨id, a, b, ha, hb, (ne_iff_of_id hid).1 hne⟩
  · rintro (⟨a, b, ha, hb, hne⟩ | ⟨id, a, b, ha, hb, hne⟩) hcompatible
    · exact hne (hcompatible.family a b ha hb)
    · rw [hcompatible.objects id a b ha hb] at hne
      simp at hne

theorem mem_keys_union (hg : g.Intact) (hh : h.Intact) (hu : g.union h = .ok u) (x : Variable) :
    x ∈ u.bindings.keys ↔ x ∈ g.bindings.keys ∨ x ∈ h.bindings.keys := by
  have hknown : u.Shows (.known x) ↔ g.Shows (.known x) ∨ h.Shows (.known x) :=
    shows_union hg hh hu
  simpa [Shows, SortedMap.contains, Option.isSome_iff_exists, SortedMap.mem_keys_iff] using hknown

/-- **A union holds what either graph holds and nothing else.**  It fails, and
then names an id, exactly when the graphs belong to different families or use
an id for different objects; made step by step, with a check at every step, it
does the same. -/
theorem union_exact (hg : g.Built) (hh : h.Built) :
    ((∃ e, g.union h = .error e) ↔
      (∃ a b, g.family = some a ∧ h.family = some b ∧ a ≠ b) ∨
        ∃ id a b, g.object? id = some a ∧ h.object? id = some b ∧
          (a.kind ≠ b.kind ∨ a.type ≠ b.type ∨ a.offset ≠ b.offset)) ∧
      (∀ e, g.union h = .error e → ∃ id, e = .heapIdCollision id) ∧
      (∀ u, g.union h = .ok u →
        (∀ id object, u.object? id = some object ↔
          g.object? id = some object ∨ h.object? id = some object) ∧
        (∀ x, x ∈ u.bindings.keys ↔ x ∈ g.bindings.keys ∨ x ∈ h.bindings.keys) ∧
        (∀ x, u.targets x = (g.targets x).union (h.targets x)) ∧
        (∀ id f, u.fieldTargets id f = (g.fieldTargets id f).union (h.fieldTargets id f)) ∧
        u.family = g.family.or h.family) ∧
      g.unionStepwise h = g.union h := by
  have hleft := hg.intact
  have hright := hh.intact
  refine ⟨exists_error_iff.trans (not_compatible_iff hleft.keyed hright.keyed),
    fun e => error_of_union, fun u hu => ⟨fun id object => object?_union hright.keyed hu,
      mem_keys_union hleft hright hu, fun x => ?_, fun id f => ?_, family_union hleft hright hu⟩,
    unionStepwise_eq hleft hright⟩
  · exact SortedSet.ext_mem fun id => by
      rw [mem_targets_union hu, SortedSet.mem_union]
  · exact SortedSet.ext_mem fun t => by
      rw [mem_fieldTargets_union hright.keyed hu, SortedSet.mem_union]

/-- The list takes in the item; a graph of another family cannot be taken
in. -/
theorem union_exact_listHead :
    listAlone.Built ∧ listHead.Built ∧ (ofFamily 1).Built ∧
      (∃ u, listAlone.union listHead = .ok u ∧ u.family = some 0 ∧
        u.fieldTargets 1 ⟨"List", "head"⟩ = .singleton 2) ∧
      ∃ e, listAlone.union (ofFamily 1) = .error e := by
  have halone : listAlone.Built := .change (.ofFamily 0) _
  have hlist : listHead.Built := Built.foldl .empty _
  have hother : (ofFamily 1).Built := .ofFamily 1
  have hunited : ∃ u, listAlone.union listHead = .ok u :=
    exists_union_iff.2 (collision?_eq_none_iff.1 (by decide +kernel))
  obtain ⟨u, hu⟩ := hunited
  obtain ⟨-, -, -, hfields, hfamily⟩ := (union_exact halone hlist).2.2.1 u hu
  refine ⟨halone, hlist, hother, ⟨u, hu, ?_, ?_⟩, (union_exact halone hother).1.2 (.inl ?_)⟩
  · rw [hfamily]
    decide +kernel
  · rw [hfields]
    decide +kernel
  · exact ⟨0, 1, by decide +kernel, rfl, by decide⟩

/-! ## Many graphs -/

/-- A graph that holds what the graphs of a list hold and nothing else. -/
structure Unites (l : List HeapGraph) (u : HeapGraph) : Prop where
  intact : u.Intact
  objects : ∀ id object, u.object? id = some object ↔ ∃ g ∈ l, g.object? id = some object
  shows : ∀ atom, u.Shows atom ↔ ∃ g ∈ l, g.Shows atom
  family : ∀ a, u.family = some a ↔ ∃ g ∈ l, g.family = some a

/-- Two graphs count as the same and have the same objects and family. -/
structure Coincides (g h : HeapGraph) : Prop where
  edges : g.sameEdges h = true
  objects : ∀ id, g.object? id = h.object? id
  family : g.family = h.family

namespace Unites

theorem single (hg : g.Intact) : Unites [g] g :=
  ⟨hg, by simp, by simp, by simp⟩

/-- The order of the list and repetitions in it play no part. -/
theorem congr (hu : Unites l u) (hmem : ∀ g, g ∈ l ↔ g ∈ l') : Unites l' u := by
  obtain ⟨hintact, hobjects, hshows, hfamily⟩ := hu
  simp only [hmem] at hobjects hshows hfamily
  exact ⟨hintact, hobjects, hshows, hfamily⟩

theorem coincides (hu : Unites l u) (hw : Unites l w) : u.Coincides w := by
  refine ⟨sameEdges_of_below hu.intact hw.intact ?_ ?_, fun id => ?_, ?_⟩
  · exact fun atom hatom => (hw.shows atom).2 ((hu.shows atom).1 hatom)
  · exact fun atom hatom => (hu.shows atom).2 ((hw.shows atom).1 hatom)
  · exact Option.ext fun object => (hu.objects id object).trans (hw.objects id object).symm
  · exact Option.ext fun a => (hu.family a).trans (hw.family a).symm

/-- Graphs that have been united are compatible with each other. -/
theorem compatible (hu : Unites l u) (hg : g ∈ l) (hh : h ∈ l) : g.Compatible h := by
  refine ⟨fun a b ha hb => ?_, fun id a b ha hb => ?_⟩
  · have hua := (hu.family a).2 ⟨g, hg, ha⟩
    have hub := (hu.family b).2 ⟨h, hh, hb⟩
    exact Option.some.inj (hua.symm.trans hub)
  · have hua := (hu.objects id a).2 ⟨g, hg, ha⟩
    have hub := (hu.objects id b).2 ⟨h, hh, hb⟩
    exact Option.some.inj (hua.symm.trans hub)

/-- One more graph fits in exactly when it is compatible with all that have
been united. -/
theorem compatible_iff (hu : Unites l u) : u.Compatible h ↔ ∀ g ∈ l, g.Compatible h := by
  constructor
  · intro hcompatible g hg
    refine ⟨fun a b ha hb => ?_, fun id a b ha hb => ?_⟩
    · exact hcompatible.family a b ((hu.family a).2 ⟨g, hg, ha⟩) hb
    · exact hcompatible.objects id a b ((hu.objects id a).2 ⟨g, hg, ha⟩) hb
  · intro hcompatible
    refine ⟨fun a b ha hb => ?_, fun id a b ha hb => ?_⟩
    · obtain ⟨g, hg, hga⟩ := (hu.family a).1 ha
      exact (hcompatible g hg).family a b hga hb
    · obtain ⟨g, hg, hga⟩ := (hu.objects id a).1 ha
      exact (hcompatible g hg).objects id a b hga hb

theorem union (hu : Unites l u) (hh : h.Intact) (hw : u.union h = .ok w) :
    Unites (h :: l) w := by
  refine ⟨hu.intact.union hh hw, fun id object => ?_, fun atom => ?_, fun a => ?_⟩
  · rw [object?_union hh.keyed hw, hu.objects, List.exists_mem_cons_iff, or_comm]
  · rw [shows_union hu.intact hh hw, hu.shows, List.exists_mem_cons_iff, or_comm]
  · rw [family_union hu.intact hh hw, Option.or_eq_some_iff, List.exists_mem_cons_iff,
      ← hu.family]
    constructor
    · rintro (ha | ⟨-, ha⟩)
      · exact .inr ha
      · exact .inl ha
    · rintro (ha | ha)
      · -- The family of the new graph counts if there was none, and else is the old one.
        cases hold : u.family with
        | none => exact .inr ⟨rfl, ha⟩
        | some b => exact .inl (congrArg some ((exists_union_iff.1 ⟨w, hw⟩).family b a hold ha))
      · exact .inl ha

theorem foldlM (hu : Unites l u) (hrest : ∀ g ∈ rest, g.Intact)
    (hw : rest.foldlM HeapGraph.union u = .ok w) : Unites (rest ++ l) w := by
  induction rest generalizing l u with
  | nil =>
      cases hw
      exact hu
  | cons h rest ih =>
      rw [List.foldlM_cons] at hw
      obtain ⟨v, hv, hw⟩ := bind_eq_ok.1 hw
      have hnext := hu.union (hrest h List.mem_cons_self) hv
      have hall := ih hnext (fun g hg => hrest g (List.mem_cons_of_mem h hg)) hw
      exact hall.congr fun g => List.perm_middle.mem_iff

/-- Graphs that are compatible with each other can all be united. -/
theorem exists_foldlM (hu : Unites l u) (hrest : ∀ g ∈ rest, g.Intact)
    (hcompatible : ∀ g ∈ rest ++ l, ∀ h ∈ rest, g.Compatible h) :
    ∃ w, rest.foldlM HeapGraph.union u = .ok w := by
  induction rest generalizing l u with
  | nil => exact ⟨u, rfl⟩
  | cons h rest ih =>
      have hfits : u.Compatible h := hu.compatible_iff.2 fun g hg =>
        hcompatible g (List.mem_append_right _ hg) h List.mem_cons_self
      obtain ⟨v, hv⟩ := exists_union_iff.2 hfits
      rw [List.foldlM_cons, hv]
      refine ih (hu.union (hrest h List.mem_cons_self) hv)
        (fun g hg => hrest g (List.mem_cons_of_mem h hg)) fun g hg k hk => ?_
      exact hcompatible g (List.perm_middle.mem_iff.1 hg) k (List.mem_cons_of_mem h hk)

/-- What has been taken in once can be taken in again, and changes nothing. -/
theorem union_again (hu : Unites l u) (hl : ∀ g ∈ l, g.Intact) (hg : g ∈ l) :
    ∃ w, u.union g = .ok w ∧ w.Coincides u := by
  have hfits : u.Compatible g := hu.compatible_iff.2 fun k hk => hu.compatible hk hg
  obtain ⟨w, hw⟩ := exists_union_iff.2 hfits
  have hagain : Unites (g :: l) u := hu.congr fun k => by
    rw [List.mem_cons, or_iff_right_of_imp fun hk => hk ▸ hg]
  exact ⟨w, hw, (hu.union (hl g hg) hw).coincides hagain⟩

end Unites

end HeapGraph

namespace PointsTo

open HeapGraph

variable {l l' : List HeapGraph} {u : HeapGraph} {family : Nat}

theorem unites_join (hl : ∀ g ∈ l, g.Intact) (hsome : l ≠ []) (hu : join family l = .ok u) :
    Unites l u := by
  cases l with
  | nil => exact absurd rfl hsome
  | cons first rest =>
      have hall := (Unites.single (hl first List.mem_cons_self)).foldlM
        (fun g hg => hl g (List.mem_cons_of_mem first hg)) hu
      exact hall.congr fun g => List.perm_append_singleton first rest |>.mem_iff

/-- **Facts can be joined exactly when any two of them are compatible.** -/
theorem exists_join_iff (hl : ∀ g ∈ l, g.Intact) (hsome : l ≠ []) :
    (∃ u, join family l = .ok u) ↔ ∀ g ∈ l, ∀ h ∈ l, g.Compatible h := by
  constructor
  · rintro ⟨u, hu⟩ g hg h hh
    exact (unites_join hl hsome hu).compatible hg hh
  · intro hcompatible
    cases l with
    | nil => exact absurd rfl hsome
    | cons first rest =>
        refine (Unites.single (hl first List.mem_cons_self)).exists_foldlM
          (fun g hg => hl g (List.mem_cons_of_mem first hg)) fun g hg h hh => ?_
        exact hcompatible g ((List.perm_append_singleton first rest).mem_iff.1 hg) h
          (List.mem_cons_of_mem first hh)

/-- **The order in which facts are joined plays no part**, neither for the
outcome nor for whether there is one; and a fact that is joined again changes
nothing. -/
theorem join_reordered (family : Nat) (hsome : l ≠ []) (hbuilt : ∀ g ∈ l, g.Built) :
    ((∃ l', l'.Perm l ∧ ∃ u, join family l' = .ok u) ↔
        ∀ l', l'.Perm l → ∃ u, join family l' = .ok u) ∧
      (∀ l₁ l₂ u₁ u₂, l₁.Perm l → l₂.Perm l → join family l₁ = .ok u₁ →
        join family l₂ = .ok u₂ → u₁.Coincides u₂) ∧
      (∀ u, join family l = .ok u → ∀ g ∈ l, ∃ w, u.union g = .ok w ∧ w.Coincides u) ∧
      ∀ g ∈ l, ∃ w, g.union g = .ok w ∧ w.Coincides g := by
  have hl : ∀ g ∈ l, g.Intact := fun g hg => (hbuilt g hg).intact
  have hintact : ∀ {l' : List HeapGraph}, l'.Perm l → ∀ g ∈ l', g.Intact :=
    fun hp g hg => hl g (hp.mem_iff.1 hg)
  have hnonempty : ∀ {l' : List HeapGraph}, l'.Perm l → l' ≠ [] :=
    fun hp hnil => hsome (hnil ▸ hp).symm.eq_nil
  have hunites : ∀ {l' : List HeapGraph} {u}, l'.Perm l → join family l' = .ok u → Unites l u :=
    fun hp hu => (unites_join (hintact hp) (hnonempty hp) hu).congr fun _ => hp.mem_iff
  refine ⟨⟨?_, fun hall => ⟨l, .refl l, hall l (.refl l)⟩⟩, ?_, ?_, ?_⟩
  · rintro ⟨l₁, hp₁, u, hu⟩ l₂ hp₂
    refine (exists_join_iff (hintact hp₂) (hnonempty hp₂)).2 fun g hg h hh => ?_
    exact (hunites hp₁ hu).compatible (hp₂.mem_iff.1 hg) (hp₂.mem_iff.1 hh)
  · intro l₁ l₂ u₁ u₂ hp₁ hp₂ hu₁ hu₂
    exact (hunites hp₁ hu₁).coincides (hunites hp₂ hu₂)
  · intro u hu g hg
    exact (hunites (.refl l) hu).union_again hl hg
  · intro g hg
    exact (Unites.single (hl g hg)).union_again (by simpa using hl g hg) List.mem_cons_self

/-- A graph that is not bound yet, a list alone, and the list with its item
can be joined from either end. -/
theorem join_reordered_listHead :
    (∀ g ∈ [HeapGraph.empty, listAlone, listHead], g.Built) ∧
      ∃ u w, join 0 [HeapGraph.empty, listAlone, listHead] = .ok u ∧
        join 0 [listHead, HeapGraph.empty, listAlone] = .ok w ∧ u.Coincides w := by
  have hbuilt : ∀ g ∈ [HeapGraph.empty, listAlone, listHead], g.Built := by
    intro g hg
    simp only [List.mem_cons, List.not_mem_nil, or_false] at hg
    rcases hg with rfl | rfl | rfl
    · exact .empty
    · exact .change (.ofFamily 0) _
    · exact Built.foldl .empty _
  have hjoin : ∃ u, join 0 [HeapGraph.empty, listAlone, listHead] = .ok u := by
    refine (exists_join_iff (fun g hg => (hbuilt g hg).intact) (by simp)).2 fun g hg h hh => ?_
    refine collision?_eq_none_iff.1 ?_
    revert g h
    decide +kernel
  have hperm : ([listHead] ++ [HeapGraph.empty, listAlone]).Perm
      ([HeapGraph.empty, listAlone] ++ [listHead]) := List.perm_append_comm
  obtain ⟨hany, hsame, -, -⟩ := join_reordered 0 (by simp) hbuilt
  obtain ⟨u, hu⟩ := hjoin
  obtain ⟨w, hw⟩ := hany.1 ⟨_, .refl _, u, hu⟩ _ hperm
  exact ⟨hbuilt, u, w, hu, hw, hsame _ _ u w (.refl _) hperm hu hw⟩

end PointsTo

end MethodFlow
