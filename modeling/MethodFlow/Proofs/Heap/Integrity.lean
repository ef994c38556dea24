import MethodFlow.Proofs.Heap.Graph

/-!
# Integrity of points-to graphs

A points-to graph writes every edge down twice: an edge of a variable at the
variable and at the object, an edge of a field at both objects.  No operation
ever leaves one of the two out.  This is worth a proof because a missing half
goes unnoticed until somebody looks from the other side, and because two
graphs count as the same only if both halves agree.

What one change keeps is proved change by change, for a change that fails as
well as for one that succeeds; every graph that changes can lead to then has
the property.  A union is made of the same steps as the other changes, after
a check that none of these steps can fail.

## Main results

* `HeapGraph.Intact`: both ends of all edges are written down, between nodes
  of the graph, and nothing else is.
* `HeapGraph.Intact.after`, `HeapGraph.Intact.union`: what changes keep.
* `HeapGraph.unionStepwise_eq`: no step of a union fails.
* `HeapGraph.edges_of_built`: every graph that changes lead to is intact.
-/

namespace MethodFlow

/-- Every field that is kept has an edge. -/
def FieldEdges.Filled (e : FieldEdges) : Prop := ∀ f ids, e.get? f = some ids → ids ≠ .empty

theorem FieldEdges.filled_empty : Filled .empty := by
  intro f ids hids
  cases hids

theorem FieldEdges.filled_add {e : FieldEdges} (he : Filled e) (f : FieldRef) (id : HeapId) :
    Filled (FieldEdges.add e f id) := by
  intro f' ids hids
  rw [FieldEdges.add, SortedMap.get?_insert] at hids
  split at hids
  · rw [← Option.some.inj hids]
    intro hempty
    have hmem : id ∈ (FieldEdges.atField e f).insert id := SortedSet.mem_insert.2 (.inl rfl)
    rw [hempty] at hmem
    exact SortedSet.not_mem_empty id hmem
  · exact he f' ids hids

namespace HeapGraph

variable {g g' h u : HeapGraph} {x y : Variable} {a b id t : HeapId} {f f' : FieldRef}
  {object : HeapObject} {n : HeapNode}

/-- The variables that the node of an id knows to refer to it. -/
def holders (g : HeapGraph) (id : HeapId) : SortedSet Variable :=
  ((g.node? id).map HeapNode.holders).getD .empty

/-- What a points-to graph always satisfies. -/
structure Intact (g : HeapGraph) : Prop where
  /-- An edge of a field is known at both ends. -/
  fields : ∀ a b f, b ∈ g.fieldTargets a f ↔ a ∈ g.fieldSources b f
  /-- An edge of a variable is known at both ends. -/
  held : ∀ x id, id ∈ g.targets x ↔ x ∈ g.holders id
  /-- Every node is kept under its own id. -/
  keyed : g.Keyed
  null : g.object? HeapId.null = some .null
  /-- No node keeps a field without an edge. -/
  filled : ∀ id n, g.node? id = some n → FieldEdges.Filled n.sources ∧ FieldEdges.Filled n.targets

/-! ## Nodes and their ends of the edges -/

theorem mem_holders : x ∈ g.holders id ↔ ∃ n, g.node? id = some n ∧ x ∈ n.holders := by
  unfold holders
  cases g.node? id <;> simp

theorem mem_fieldTargets :
    b ∈ g.fieldTargets a f ↔ ∃ n, g.node? a = some n ∧ b ∈ FieldEdges.atField n.targets f := by
  unfold fieldTargets
  cases g.node? a <;> simp

theorem mem_fieldSources :
    b ∈ g.fieldSources a f ↔ ∃ n, g.node? a = some n ∧ b ∈ FieldEdges.atField n.sources f := by
  unfold fieldSources
  cases g.node? a <;> simp

private theorem fieldSources_eq (g : HeapGraph) (id : HeapId) (f : FieldRef) :
    g.fieldSources id f =
      ((g.node? id).map HeapNode.sources).elim .empty (FieldEdges.atField · f) := by
  unfold fieldSources
  cases g.node? id <;> rfl

private theorem fieldTargets_elim (g : HeapGraph) (id : HeapId) (f : FieldRef) :
    g.fieldTargets id f =
      ((g.node? id).map HeapNode.targets).elim .empty (FieldEdges.atField · f) := by
  unfold fieldTargets
  cases g.node? id <;> rfl

theorem contains_of_node? (hn : g.node? id = some n) : g.contains id = true :=
  contains_iff.2 ⟨n.object, by rw [object?, hn, Option.map_some]⟩

theorem exists_node? (hid : g.contains id = true) : ∃ n, g.node? id = some n :=
  Option.isSome_iff_exists.1 hid

namespace Intact

/-- Variables refer to nodes only. -/
theorem contains_of_targets (hg : g.Intact) (hid : id ∈ g.targets x) : g.contains id = true := by
  obtain ⟨n, hn, -⟩ := mem_holders.1 ((hg.held x id).1 hid)
  exact contains_of_node? hn

/-- Both ends of an edge of a field are nodes. -/
theorem contains_of_fieldTargets (hg : g.Intact) (hb : b ∈ g.fieldTargets a f) :
    g.contains a = true ∧ g.contains b = true := by
  obtain ⟨n, hn, -⟩ := mem_fieldTargets.1 hb
  obtain ⟨m, hm, -⟩ := mem_fieldSources.1 ((hg.fields a b f).1 hb)
  exact ⟨contains_of_node? hn, contains_of_node? hm⟩

end Intact

/-! ## Edges of variables -/

/-- What a node knows apart from the variables. -/
private def core (n : HeapNode) : HeapObject × FieldEdges × FieldEdges :=
  (n.object, n.sources, n.targets)

/-- Whatever a change of nodes does not touch stays as it is. -/
private theorem map_get?_modify {β : Type} (part : HeapNode → β) (change : HeapNode → HeapNode)
    (hchange : ∀ n, part (change n) = part n) (nodes : SortedMap HeapId HeapNode)
    (a id : HeapId) :
    ((nodes.modify a change).get? id).map part = (nodes.get? id).map part := by
  rw [SortedMap.get?_modify]
  split
  · next hid =>
    rw [hid, Option.map_map]
    exact congrFun (congrArg Option.map (funext hchange)) _
  · rfl

private theorem map_get?_drop {β : Type} (part : HeapNode → β)
    (hpart : ∀ n, part (HeapNode.dropVariable n x) = part n) (ids : List HeapId)
    (nodes : SortedMap HeapId HeapNode) (id : HeapId) :
    ((ids.foldl (fun nodes a => nodes.modify a fun n => n.dropVariable x) nodes).get? id).map part
      = (nodes.get? id).map part := by
  induction ids generalizing nodes with
  | nil => rfl
  | cons a rest ih => rw [List.foldl_cons, ih, map_get?_modify part _ hpart]

/-- A graph stays intact when its nodes lose or gain variables only, and the
variables agree. -/
private theorem Intact.of_core (hg : g.Intact)
    (hcore : ∀ id, (g'.node? id).map core = (g.node? id).map core)
    (hheld : ∀ x id, id ∈ g'.targets x ↔ x ∈ g'.holders id) : g'.Intact := by
  have hnode : ∀ {id n}, g'.node? id = some n → ∃ m, g.node? id = some m ∧ core m = core n := by
    intro id n hn
    have heq := hcore id
    rw [hn, Option.map_some] at heq
    exact Option.map_eq_some_iff.1 heq.symm
  have hpart : ∀ {β : Type} (part : HeapObject × FieldEdges × FieldEdges → β) id,
      (g'.node? id).map (part ∘ core) = (g.node? id).map (part ∘ core) := by
    intro β part id
    rw [← Option.map_map, ← Option.map_map, hcore]
  have hobject : ∀ id, g'.object? id = g.object? id := hpart Prod.fst
  have hsources : ∀ a f, g'.fieldSources a f = g.fieldSources a f := by
    intro a f
    have hsame : (g'.node? a).map HeapNode.sources = (g.node? a).map HeapNode.sources :=
      hpart (fun c => c.2.1) a
    rw [fieldSources_eq, fieldSources_eq, hsame]
  have htargets : ∀ a f, g'.fieldTargets a f = g.fieldTargets a f := by
    intro a f
    have hsame : (g'.node? a).map HeapNode.targets = (g.node? a).map HeapNode.targets :=
      hpart (fun c => c.2.2) a
    rw [fieldTargets_elim, fieldTargets_elim, hsame]
  refine ⟨fun a b f => ?_, hheld, fun id o ho => ?_, ?_, fun id n hn => ?_⟩
  · rw [htargets, hsources]
    exact hg.fields a b f
  · rw [hobject] at ho
    exact hg.keyed id o ho
  · rw [hobject]
    exact hg.null
  · obtain ⟨m, hm, hparts⟩ := hnode hn
    have hfilled := hg.filled id m hm
    simp only [core, Prod.mk.injEq] at hparts
    rwa [hparts.2.1, hparts.2.2] at hfilled

theorem mem_holders_attach (ha : g.contains a = true) :
    y ∈ (g.attach x a).holders id ↔ (y = x ∧ id = a) ∨ y ∈ g.holders id := by
  obtain ⟨n, hn⟩ := exists_node? ha
  unfold holders
  rw [attach, node?, SortedMap.get?_modify]
  split
  · next hid =>
    subst hid
    have hget : g.nodes.get? id = some n := hn
    rw [hget, hn]
    simp [HeapNode.addVariable]
  · next hid =>
    have hget : g.node? id = g.nodes.get? id := rfl
    simp [hid, hget]

theorem Intact.attach (hg : g.Intact) (ha : g.contains a = true) : (g.attach x a).Intact := by
  refine hg.of_core (fun id => ?_) (fun y id => ?_)
  · exact map_get?_modify core (fun n => n.addVariable x) (fun _ => rfl) g.nodes a id
  · rw [mem_targets_attach, mem_holders_attach ha, hg.held]

private theorem mem_drop (x y : Variable) (id : HeapId) (ids : List HeapId)
    (nodes : SortedMap HeapId HeapNode) :
    y ∈ (((ids.foldl (fun nodes a => nodes.modify a fun n => n.dropVariable x) nodes).get? id).map
        HeapNode.holders).getD .empty ↔
      y ∈ ((nodes.get? id).map HeapNode.holders).getD .empty ∧ ¬ (y = x ∧ id ∈ ids) := by
  induction ids generalizing nodes with
  | nil => simp
  | cons a rest ih =>
      rw [List.foldl_cons, ih, SortedMap.get?_modify]
      split
      · next hid =>
        subst hid
        cases nodes.get? id with
        | none => simp
        | some n =>
            simp only [Option.map_some, Option.getD_some, HeapNode.dropVariable,
              SortedSet.mem_erase, List.mem_cons_self, and_true, not_and]
            exact ⟨fun hy => hy.1, fun hy => ⟨⟨hy.1, hy.2⟩, fun heq => absurd heq hy.2⟩⟩
      · next hid => simp [hid]

theorem Intact.detach (hg : g.Intact) (x : Variable) : (g.detach x).Intact := by
  unfold HeapGraph.detach
  split
  · exact hg
  · next ids hids =>
    have htargets : g.targets x = ids := by rw [targets, hids]; rfl
    refine hg.of_core (fun id => ?_) (fun y id => ?_)
    · exact map_get?_drop core (fun _ => rfl) ids.toList g.nodes id
    · -- The variable is dropped exactly where it has been a holder.
      have hholders := mem_drop x y id ids.toList g.nodes
      have hold : y ∈ ((g.nodes.get? id).map HeapNode.holders).getD .empty ↔ id ∈ g.targets y :=
        (hg.held y id).symm
      have hnew : (g.detach x).targets y = if y = x then .empty else g.targets y :=
        targets_detach
      rw [HeapGraph.detach, hids] at hnew
      rw [hnew]
      refine Iff.trans ?_ hholders.symm
      rw [hold, SortedSet.mem_toList]
      split
      · next hy => simp [hy, htargets]
      · next hy => simp [hy]

theorem Intact.forget (hg : g.Intact) (x : Variable) : (g.forget x).Intact := by
  have hdetach := hg.detach x
  refine hdetach.of_core (fun _ => rfl) (fun y id => Iff.trans ?_ (hdetach.held y id))
  have herase : (g.forget x).targets y = if y = x then .empty else (g.detach x).targets y := by
    rw [targets, HeapGraph.forget, SortedMap.get?_erase]
    split <;> rfl
  rw [herase, targets_detach]
  split
  · rfl
  · rfl

/-! ## Edges of fields -/

/-- An edge of a field is added to the object that it reaches, if there is
one. -/
theorem mem_fieldSources_attachField (ht : g.contains t = true) :
    id ∈ (g.attachField a f t).fieldSources b f' ↔
      (b = t ∧ f' = f ∧ id = a) ∨ id ∈ g.fieldSources b f' := by
  have hnode : ∀ k, ((g.nodes.modify a fun n => n.addTarget f t).get? k).map HeapNode.sources =
      (g.nodes.get? k).map HeapNode.sources :=
    map_get?_modify HeapNode.sources (fun n => n.addTarget f t) (fun _ => rfl) g.nodes a
  rw [fieldSources_eq, fieldSources_eq, node?, node?, attachField, SortedMap.get?_modify]
  split
  · next hb =>
    subst hb
    obtain ⟨n, hn⟩ := exists_node? ht
    have hget : g.nodes.get? b = some n := hn
    obtain ⟨m, hm, hsources⟩ := Option.map_eq_some_iff.1 ((hnode b).trans (by rw [hget]; rfl))
    rw [hm, hget, Option.map_some, Option.map_some, Option.map_some]
    show id ∈ FieldEdges.atField (FieldEdges.add m.sources f a) f' ↔
      _ ∨ id ∈ FieldEdges.atField n.sources f'
    rw [atField_add, hsources]
    split
    · next hf => simp [hf]
    · next hf => simp [hf]
  · next hb =>
    rw [hnode]
    simp [hb]

private theorem holders_attachField : (g.attachField a f t).holders id = g.holders id := by
  unfold holders
  rw [attachField, node?, map_get?_modify HeapNode.holders (fun n => n.addSource f a) fun _ => rfl,
    map_get?_modify HeapNode.holders (fun n => n.addTarget f t) fun _ => rfl]
  rfl

/-- What holds of all nodes and is kept by a change holds after it. -/
private theorem forall_modify {P : HeapNode → Prop} {change : HeapNode → HeapNode}
    (hchange : ∀ n, P n → P (change n)) {nodes : SortedMap HeapId HeapNode}
    (hnodes : ∀ id n, nodes.get? id = some n → P n) (a : HeapId) :
    ∀ id n, (nodes.modify a change).get? id = some n → P n := by
  intro id n hn
  rw [SortedMap.get?_modify] at hn
  split at hn
  · obtain ⟨m, hm, rfl⟩ := Option.map_eq_some_iff.1 hn
    exact hchange m (hnodes a m hm)
  · exact hnodes id n hn

theorem Intact.attachField (hg : g.Intact) (ha : g.contains a = true)
    (ht : g.contains t = true) : (g.attachField a f t).Intact where
  fields b c f' := by
    rw [mem_fieldTargets_attachField ha, mem_fieldSources_attachField ht, hg.fields]
    exact or_congr_left ⟨fun ⟨hb, hf, hc⟩ => ⟨hc, hf, hb⟩, fun ⟨hc, hf, hb⟩ => ⟨hb, hf, hc⟩⟩
  held x id := by
    rw [targets_attachField, holders_attachField, hg.held]
  keyed id object hobject := hg.keyed id object (object?_attachField ▸ hobject)
  null := object?_attachField.trans hg.null
  filled := by
    refine forall_modify (fun n hn => ?_) (forall_modify (fun n hn => ?_) hg.filled a) t
    · exact ⟨FieldEdges.filled_add hn.1 f a, hn.2⟩
    · exact ⟨hn.1, FieldEdges.filled_add hn.2 f t⟩

/-! ## Objects -/

private theorem node?_place : (g.place object).node? id =
    if id = object.id then some (.bare object) else g.node? id :=
  SortedMap.get?_insert _ _ _ _

/-- A new node without edges leaves everything intact. -/
theorem Intact.place (hg : g.Intact) (hnew : g.object? object.id = none) :
    (g.place object).Intact := by
  have hnone : g.node? object.id = none := Option.map_eq_none_iff.1 hnew
  have hsources : ∀ c f, (g.place object).fieldSources c f = g.fieldSources c f := by
    intro c f
    rw [fieldSources_eq, fieldSources_eq, node?_place]
    split
    · next hc =>
      rw [hc, hnone]
      rfl
    · rfl
  have hholders : ∀ c, (g.place object).holders c = g.holders c := by
    intro c
    unfold holders
    rw [node?_place]
    split
    · next hc =>
      rw [hc, hnone]
      rfl
    · rfl
  refine ⟨fun a b f => ?_, fun x id => ?_, fun id o ho => ?_, ?_, fun id n hn => ?_⟩
  · rw [fieldTargets_place hnew, hsources]
    exact hg.fields a b f
  · rw [targets_place, hholders]
    exact hg.held x id
  · rw [object?_place] at ho
    split at ho
    · next hid =>
      cases ho
      exact hid.symm
    · exact hg.keyed id o ho
  · rw [object?_place]
    split
    · next hid =>
      rw [← hid, hg.null] at hnew
      cases hnew
    · exact hg.null
  · rw [node?_place] at hn
    split at hn
    · cases hn
      exact ⟨FieldEdges.filled_empty, FieldEdges.filled_empty⟩
    · exact hg.filled id n hn

/-- The family plays no part. -/
theorem Intact.bind (hg : g.Intact) (family : Option Nat) : { g with family }.Intact :=
  hg.of_core (fun _ => rfl) hg.held

theorem intact_empty : empty.Intact := by
  have hnode : ∀ id n, empty.node? id = some n → id = HeapId.null ∧ n = .bare .null := by
    intro id n hn
    rw [empty, node?, SortedMap.get?_insert] at hn
    split at hn
    · next hid => exact ⟨hid, (Option.some.inj hn).symm⟩
    · cases hn
  refine ⟨fun a b f => ?_, fun x id => ?_, fun id o ho => ?_, rfl, fun id n hn => ?_⟩
  · rw [mem_fieldTargets, mem_fieldSources]
    constructor <;>
    · rintro ⟨n, hn, hmem⟩
      rw [(hnode _ n hn).2] at hmem
      exact absurd hmem (SortedSet.not_mem_empty _)
  · rw [mem_holders]
    refine ⟨fun hid => absurd hid (SortedSet.not_mem_empty id), ?_⟩
    rintro ⟨n, hn, hmem⟩
    rw [(hnode _ n hn).2] at hmem
    exact absurd hmem (SortedSet.not_mem_empty x)
  · obtain ⟨n, hn, rfl⟩ := Option.map_eq_some_iff.1 ho
    rw [(hnode id n hn).1, (hnode id n hn).2]
    rfl
  · rw [(hnode id n hn).2]
    exact ⟨FieldEdges.filled_empty, FieldEdges.filled_empty⟩

theorem intact_ofFamily (family : Nat) : (ofFamily family).Intact :=
  intact_empty.bind (some family)

/-! ## Unions -/

/-- A variable becomes known. -/
def know (g : HeapGraph) (x : Variable) : HeapGraph :=
  { g with bindings := g.bindings.insert x (g.targets x) }

theorem Intact.know (hg : g.Intact) (x : Variable) : (g.know x).Intact := by
  refine hg.of_core (fun _ => rfl) (fun y id => Iff.trans ?_ (hg.held y id))
  rw [HeapGraph.know, targets_insert]
  split
  · next hy => rw [hy]
  · rfl

/-- A union made of the steps of other changes, each of which may fail. -/
def unionStepwise (g h : HeapGraph) : Except Error HeapGraph :=
  match g.collision? h with
  | some id => .error (.heapIdCollision id)
  | none => do
    let objects ← h.nodes.values.foldlM (fun g n => g.addObject n.object)
      { g with family := g.family.or h.family }
    let held ← h.bindings.toList.foldlM
      (fun g e => e.2.toList.foldlM (fun g id => g.pointsTo e.1 id) (g.know e.1)) objects
    h.nodes.values.foldlM
      (fun g n => n.targets.toList.foldlM
        (fun g e => e.2.toList.foldlM (fun g t => g.pointsToField n.object.id e.1 t) g) g)
      held

/-- The graph is intact and has all nodes of another one. -/
private structure Holds (h g : HeapGraph) : Prop where
  intact : g.Intact
  contains : ∀ id, h.contains id = true → g.contains id = true

private theorem Holds.attach (hg : Holds h g) (x : Variable) (ha : g.contains a = true) :
    Holds h (g.attach x a) :=
  ⟨hg.intact.attach ha, fun id hid => by
    rw [contains_iff, object?_attach, ← contains_iff]
    exact hg.contains id hid⟩

private theorem Holds.attachField (hg : Holds h g) (ha : g.contains a = true)
    (ht : g.contains t = true) : Holds h (g.attachField a f t) :=
  ⟨hg.intact.attachField ha ht, fun id hid => by
    rw [contains_iff, object?_attachField, ← contains_iff]
    exact hg.contains id hid⟩

/-- Objects on which the graphs agree can be added. -/
private theorem absorbObjects_steps (hg : g.Intact) (hh : h.Keyed) (hagree : g.Agree h) :
    h.nodes.values.foldlM (fun g n => g.addObject n.object) g = .ok (g.absorbObjects h) ∧
      Holds h (g.absorbObjects h) := by
  have hsteps := foldlM_eq_ok (I := fun b : HeapGraph => b.Intact ∧ b.Agree h)
    (f := fun g n => g.addObject n.object)
    (k := fun g n => if g.contains n.object.id then g else g.place n.object)
    (l := h.nodes.values) ?_ ⟨hg, hagree⟩
  · refine ⟨hsteps.1, hsteps.2.1, fun id hid => ?_⟩
    obtain ⟨object, hobject⟩ := contains_iff.1 hid
    exact contains_iff.2 ⟨object, (object?_absorbObjects hh hagree).2 (.inr hobject)⟩
  · rintro b n hn ⟨hb, hagree⟩
    have hvalue : h.object? n.object.id = some n.object := by
      rw [object?, hh.mem_values.1 hn, Option.map_some]
    unfold addObject
    cases hold : b.node? n.object.id with
    | some m =>
        have hsame : m.object = n.object :=
          hagree n.object.id _ _ (by rw [object?, hold, Option.map_some]) hvalue
        rw [if_pos (contains_of_node? hold)]
        exact ⟨if_pos hsame, hb, hagree⟩
    | none =>
        have hnone : b.object? n.object.id = none := by rw [object?, hold, Option.map_none]
        rw [if_neg (by rw [contains_eq_false_iff.2 hnone]; exact Bool.false_ne_true)]
        refine ⟨rfl, hb.place hnone, fun id o o' ho ho' => ?_⟩
        rw [object?_place] at ho
        split at ho
        · next hid =>
          rw [hid, hvalue] at ho'
          exact (Option.some.inj ho).symm.trans (Option.some.inj ho')
        · exact hagree id o o' ho ho'

/-- Variables of the other graph can be added once its nodes are there. -/
private theorem absorbVariables_steps (hg : Holds h g) (hh : h.Intact) :
    h.bindings.toList.foldlM
        (fun g e => e.2.toList.foldlM (fun g id => g.pointsTo e.1 id) (g.know e.1)) g =
      .ok (g.absorbVariables h) ∧ Holds h (g.absorbVariables h) := by
  refine foldlM_eq_ok (I := Holds h) (fun b e he hb => ?_) hg
  refine foldlM_eq_ok (I := Holds h) (fun k id hid hk => ?_) ⟨hb.intact.know e.1, hb.contains⟩
  have htarget : id ∈ h.targets e.1 := by
    rw [targets, SortedMap.get?_eq_some_iff.2 he]
    exact hid
  have hcontains := hk.contains id (hh.contains_of_targets htarget)
  exact ⟨pointsTo_eq_ok_iff.2 ⟨hcontains, rfl⟩, hk.attach e.1 hcontains⟩

/-- So can the edges of its fields. -/
private theorem absorbFields_steps (hg : Holds h g) (hh : h.Intact) :
    h.nodes.values.foldlM
        (fun g n => n.targets.toList.foldlM
          (fun g e => e.2.toList.foldlM (fun g t => g.pointsToField n.object.id e.1 t) g) g) g =
      .ok (g.absorbFields h) ∧ Holds h (g.absorbFields h) := by
  refine foldlM_eq_ok (I := Holds h) (fun b n hn hb => ?_) hg
  refine foldlM_eq_ok (I := Holds h) (fun b e he hb => ?_) hb
  refine foldlM_eq_ok (I := Holds h) (fun b t ht hb => ?_) hb
  have hedge : t ∈ h.fieldTargets n.object.id e.1 := by
    refine mem_fieldTargets.2 ⟨n, hh.keyed.mem_values.1 hn, ?_⟩
    rw [FieldEdges.atField, SortedMap.get?_eq_some_iff.2 he]
    exact ht
  obtain ⟨hsource, htarget⟩ := hh.contains_of_fieldTargets hedge
  have hcontains := hb.contains _ hsource
  have hcontains' := hb.contains _ htarget
  exact ⟨pointsToField_eq_ok_iff.2 ⟨hcontains, hcontains', rfl⟩,
    hb.attachField hcontains hcontains'⟩

private theorem union_steps (hg : g.Intact) (hh : h.Intact) (hclash : g.collision? h = none) :
    ∃ u, g.unionStepwise h = .ok u ∧ g.union h = .ok u ∧ u.Intact := by
  have hagree : { g with family := g.family.or h.family }.Agree h :=
    fun id a b ha hb => (collision?_eq_none_iff.1 hclash).objects id a b ha hb
  obtain ⟨hobjects, hheld⟩ := absorbObjects_steps (hg.bind _) hh.keyed hagree
  obtain ⟨hbindings, hheld'⟩ := absorbVariables_steps hheld hh
  obtain ⟨hfields, hlast⟩ := absorbFields_steps hheld' hh
  refine ⟨_, ?_, by rw [union, hclash], hlast.intact⟩
  rw [unionStepwise, hclash]
  show Except.bind (h.nodes.values.foldlM _ _) _ = _
  rw [hobjects]
  show Except.bind (h.bindings.toList.foldlM _ _) _ = _
  rw [hbindings]
  exact hfields

/-- **No step of a union fails** behind the check that comes first, so nothing
is left half done. -/
theorem unionStepwise_eq (hg : g.Intact) (hh : h.Intact) : g.unionStepwise h = g.union h := by
  cases hclash : g.collision? h with
  | some id => rw [unionStepwise, union, hclash]
  | none =>
      obtain ⟨u, hsteps, hunion, -⟩ := union_steps hg hh hclash
      rw [hsteps, hunion]

theorem Intact.union (hg : g.Intact) (hh : h.Intact) (hu : g.union h = .ok u) : u.Intact := by
  cases hclash : g.collision? h with
  | some id =>
      rw [HeapGraph.union, hclash] at hu
      cases hu
  | none =>
      obtain ⟨u', -, hunion, hintact⟩ := union_steps hg hh hclash
      rw [hunion] at hu
      cases hu
      exact hintact

/-! ## Changes one after the other -/

/-- A change of one points-to graph. -/
inductive Change where
  /-- Adds the object of a node; the edges of the node are ignored. -/
  | add (node : HeapNode)
  /-- Creates an object. -/
  | create (ids : Allocator) (kind : ObjectKind) (type : Option TypeName) (offset : Option Offset)
  | pointsTo (x : Variable) (id : HeapId)
  | pointsToField (source : HeapId) (f : FieldRef) (target : HeapId)
  | detach (x : Variable)
  | forget (x : Variable)

/-- What a change leaves behind that gives a graph or fails. -/
def orSelf (g : HeapGraph) : Except Error HeapGraph → HeapGraph
  | .ok u => u
  | .error _ => g

/-- The graph that a change leaves behind, also when it fails. -/
def after (g : HeapGraph) : Change → HeapGraph
  | .add node => g.orSelf (g.addObject node.object)
  | .create ids kind type offset => (g.create ids kind type offset).graph
  | .pointsTo x id => g.orSelf (g.pointsTo x id)
  | .pointsToField source f target => g.orSelf (g.pointsToField source f target)
  | .detach x => g.detach x
  | .forget x => g.forget x

/-- The graphs that changes and unions lead to. -/
inductive Built : HeapGraph → Prop where
  | empty : Built .empty
  | ofFamily (family : Nat) : Built (.ofFamily family)
  | change {g : HeapGraph} (hg : Built g) (change : Change) : Built (g.after change)
  | union {g h : HeapGraph} (hg : Built g) (hh : Built h) : Built (g.orSelf (g.union h))

theorem Intact.orSelf (hg : g.Intact) {r : Except Error HeapGraph}
    (hr : ∀ u, r = .ok u → u.Intact) : (g.orSelf r).Intact := by
  cases r with
  | ok u => exact hr u rfl
  | error e => exact hg

theorem Intact.addObject (hg : g.Intact) (hu : g.addObject object = .ok u) : u.Intact := by
  unfold HeapGraph.addObject at hu
  split at hu
  · split at hu
    · cases hu
      exact hg
    · cases hu
  · next hnone =>
    cases hu
    exact hg.place (by rw [object?, hnone, Option.map_none])

/-- A new object is put under a free id; a failed creation may bind the
family. -/
theorem Intact.create (hg : g.Intact) (ids : Allocator) (kind : ObjectKind)
    (type : Option TypeName) (offset : Option Offset) :
    (g.create ids kind type offset).graph.Intact := by
  unfold HeapGraph.create
  split
  · exact hg
  · split
    · exact hg
    · next bound hbound =>
      have hintact : bound.Intact := by
        unfold bind? at hbound
        split at hbound
        · split at hbound
          · cases hbound
            exact hg
          · cases hbound
        · cases hbound
          exact hg.bind _
      split
      · exact hintact
      · next hfree => exact hintact.place (contains_eq_false_iff.1 (by simpa using hfree))

/-- One change keeps a graph intact, whether it succeeds or fails. -/
theorem Intact.after (hg : g.Intact) (change : Change) : (g.after change).Intact := by
  cases change with
  | add node => exact hg.orSelf fun u hu => hg.addObject hu
  | create ids kind type offset => exact hg.create ids kind type offset
  | pointsTo x id =>
      refine hg.orSelf fun u hu => ?_
      obtain ⟨hid, rfl⟩ := pointsTo_eq_ok_iff.1 hu
      exact hg.attach hid
  | pointsToField source f target =>
      refine hg.orSelf fun u hu => ?_
      obtain ⟨hsource, htarget, rfl⟩ := pointsToField_eq_ok_iff.1 hu
      exact hg.attachField hsource htarget
  | detach x => exact hg.detach x
  | forget x => exact hg.forget x

theorem Built.intact (hg : g.Built) : g.Intact := by
  induction hg with
  | empty => exact intact_empty
  | ofFamily family => exact intact_ofFamily family
  | change _ change ih => exact ih.after change
  | union _ _ ihg ihh => exact ihg.orSelf fun u hu => ihg.union ihh hu

theorem Built.foldl (hg : g.Built) (changes : List Change) : (changes.foldl after g).Built :=
  List.foldlRecOn changes after hg fun _ hb change _ => hb.change change

/-- An id occurs in an edge of a variable or of a field. -/
def InEdge (g : HeapGraph) (id : HeapId) : Prop :=
  (∃ x, id ∈ g.targets x) ∨ (∃ a f, id ∈ g.fieldTargets a f) ∨ ∃ a f, id ∈ g.fieldSources a f

/-- **Every graph that changes lead to is intact**, whichever of them fail:
edges of fields and of variables are known at both ends, all ids in them have
nodes of their own, null is there, and no node keeps a field without an
edge. -/
theorem edges_of_built (hg : g.Built) :
    (∀ a b f, b ∈ g.fieldTargets a f ↔ a ∈ g.fieldSources b f) ∧
      (∀ x id, id ∈ g.targets x ↔ x ∈ g.holders id) ∧
      (∀ id, g.InEdge id → ∃ n, g.node? id = some n ∧ n.object.id = id) ∧
      (∃ n, g.node? HeapId.null = some n ∧ n.object.kind = .null) ∧
      ∀ id n, g.node? id = some n →
        FieldEdges.Filled n.sources ∧ FieldEdges.Filled n.targets := by
  have hintact := hg.intact
  refine ⟨hintact.fields, hintact.held, fun id hid => ?_, ?_, hintact.filled⟩
  · have hcontains : g.contains id = true := by
      rcases hid with ⟨x, hx⟩ | ⟨a, f, ha⟩ | ⟨a, f, ha⟩
      · exact hintact.contains_of_targets hx
      · exact (hintact.contains_of_fieldTargets ha).2
      · exact (hintact.contains_of_fieldTargets ((hintact.fields id a f).2 ha)).1
    obtain ⟨n, hn⟩ := exists_node? hcontains
    exact ⟨n, hn, hintact.keyed id n.object (by rw [object?, hn, Option.map_some])⟩
  · obtain ⟨n, hn, hobject⟩ := Option.map_eq_some_iff.1 hintact.null
    exact ⟨n, hn, by rw [hobject]; rfl⟩

/-- A list with a field that refers to an item.  The fourth change fails. -/
def listHead : HeapGraph :=
  [Change.create (.new 0) .object (some "List") (some 0),
    .create ⟨0, 2⟩ .object (some "Item") (some 4),
    .pointsToField 1 ⟨"List", "head"⟩ 2, .pointsTo ⟨"x", none, .local⟩ 7,
    .pointsTo ⟨"x", none, .local⟩ 1].foldl after empty

/-- The list alone. -/
def listAlone : HeapGraph :=
  after (ofFamily 0) (.create (.new 0) .object (some "List") (some 0))

/-- The list alone, united with the list and its item. -/
def listUnited : HeapGraph := listAlone.orSelf (listAlone.union listHead)

/-- The edge that comes in by the union is known at both ends. -/
theorem edges_of_built_listUnited :
    listUnited.Built ∧ 2 ∈ listUnited.fieldTargets 1 ⟨"List", "head"⟩ ∧
      1 ∈ listUnited.fieldSources 2 ⟨"List", "head"⟩ := by
  have hlist : listHead.Built := Built.foldl .empty _
  have halone : listAlone.Built := .change (.ofFamily 0) _
  have hbuilt : listUnited.Built := .union halone hlist
  have hedge : 2 ∈ listUnited.fieldTargets 1 ⟨"List", "head"⟩ := by decide +kernel
  exact ⟨hbuilt, hedge, ((edges_of_built hbuilt).1 1 2 _).1 hedge⟩

end HeapGraph

end MethodFlow
