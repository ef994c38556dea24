import Mathlib.Data.List.Perm.Subperm
import MethodFlow.Heap.Graph
import MethodFlow.Proofs.Data.Folds

/-!
# Operations on points-to graphs

Three views say all that the analysis asks of a points-to graph: the object of
an id, the ids that a variable may refer to, and the ids that a field of an
object may refer to.  Each operation is characterised by what it does to these
three; the edges as their far ends know them play no part here.

## Main results

* `HeapGraph.object?_union`, `HeapGraph.mem_targets_union`,
  `HeapGraph.mem_fieldTargets_union`: a union holds what either graph holds.
* `HeapGraph.edges_of_sameEdges`: graphs that count as the same have the same
  edges.
-/

namespace MethodFlow

/-- What stands under a key: nothing, if there is no entry for it. -/
theorem SortedMap.mem_getD_get? {α β : Type} [Ordered α] [DecidableEq α] [Ordered β]
    {m : SortedMap α (SortedSet β)} {k : α} {b : β} :
    b ∈ (m.get? k).getD .empty ↔ ∃ s, (k, s) ∈ m.toList ∧ b ∈ s := by
  have hentry : ∀ s, (k, s) ∈ m.toList ↔ m.get? k = some s := fun s =>
    SortedMap.get?_eq_some_iff.symm
  simp only [hentry]
  cases m.get? k <;> simp

namespace HeapGraph

variable {g h u : HeapGraph} {x y : Variable} {a b id t : HeapId} {f f' : FieldRef}
  {object : HeapObject}

/-- The object of an id. -/
def object? (g : HeapGraph) (id : HeapId) : Option HeapObject := (g.node? id).map HeapNode.object

theorem contains_iff : g.contains id = true ↔ ∃ object, g.object? id = some object := by
  rw [contains, SortedMap.contains, Option.isSome_iff_exists]
  simp only [object?, node?, Option.map_eq_some_iff]
  exact ⟨fun ⟨n, hn⟩ => ⟨n.object, n, hn, rfl⟩, fun ⟨_, n, hn, _⟩ => ⟨n, hn⟩⟩

theorem contains_eq_false_iff : g.contains id = false ↔ g.object? id = none := by
  rw [← Bool.not_eq_true, contains_iff, Option.eq_none_iff_forall_ne_some]
  simp

theorem isUnknown_iff :
    g.isUnknown id = true ↔ ∃ object, g.object? id = some object ∧ object.kind = .unknown := by
  simp [isUnknown, object?, HeapNode.isUnknown, Option.any_eq_true]

theorem mem_referents : id ∈ g.referents x ↔ id ∈ g.targets x ∧ id ≠ HeapId.null := by
  simp [referents]

/-- Two variables may be aliases when they share an object other than null. -/
theorem mayAlias_of_shared (hx : id ∈ g.referents x) (hy : id ∈ g.referents y) :
    g.mayAlias x y = true := by
  simp only [mayAlias, Bool.and_eq_true, Bool.or_eq_true, Bool.not_eq_true', List.any_eq_true,
    List.isEmpty_eq_false_iff]
  exact ⟨⟨List.ne_nil_of_mem hx, List.ne_nil_of_mem hy⟩,
    .inl (.inl ⟨id, hx, List.contains_iff_mem.2 hy⟩)⟩

/-- Two variables that refer to something may be aliases when one of them
refers to an object of unknown origin. -/
theorem mayAlias_of_unknown (hx : a ∈ g.referents x) (hy : b ∈ g.referents y)
    (h : g.isUnknown a = true ∨ g.isUnknown b = true) : g.mayAlias x y = true := by
  simp only [mayAlias, Bool.and_eq_true, Bool.or_eq_true, Bool.not_eq_true', List.any_eq_true,
    List.isEmpty_eq_false_iff]
  refine ⟨⟨List.ne_nil_of_mem hx, List.ne_nil_of_mem hy⟩, ?_⟩
  rcases h with h | h
  · exact .inl (.inr ⟨a, hx, h⟩)
  · exact .inr ⟨b, hy, h⟩

/-! ## What nodes show -/

/-- The parts of a node that the views show. -/
private def shown (n : HeapNode) : HeapObject × FieldEdges := (n.object, n.targets)

/-- Graphs whose nodes show the same parts have the same objects. -/
private theorem object?_congr (hnode : (g.node? id).map shown = (h.node? a).map shown) :
    g.object? id = h.object? a := by
  have hfst := congrArg (Option.map Prod.fst) hnode
  rw [Option.map_map, Option.map_map] at hfst
  exact hfst

private theorem fieldTargets_eq (g : HeapGraph) (id : HeapId) (f : FieldRef) :
    g.fieldTargets id f =
      (((g.node? id).map shown).map fun s => FieldEdges.atField s.2 f).getD .empty := by
  unfold fieldTargets
  cases g.node? id <;> rfl

private theorem fieldTargets_congr (hnode : (g.node? id).map shown = (h.node? a).map shown)
    (f : FieldRef) : g.fieldTargets id f = h.fieldTargets a f := by
  rw [fieldTargets_eq, fieldTargets_eq, hnode]

private theorem shown_modify (nodes : SortedMap HeapId HeapNode) (change : HeapNode → HeapNode)
    (hchange : ∀ n, shown (change n) = shown n) (a id : HeapId) :
    ((nodes.modify a change).get? id).map shown = (nodes.get? id).map shown := by
  rw [SortedMap.get?_modify]
  split
  · next hid =>
    rw [hid, Option.map_map]
    exact congrFun (congrArg Option.map (funext hchange)) _
  · rfl

theorem fieldTargets_of_none (h : g.object? id = none) (f : FieldRef) :
    g.fieldTargets id f = .empty := by
  rw [object?, Option.map_eq_none_iff] at h
  rw [fieldTargets, h]

theorem atField_add (e : FieldEdges) (f f' : FieldRef) (id : HeapId) :
    FieldEdges.atField (FieldEdges.add e f id) f' =
      if f' = f then (FieldEdges.atField e f).insert id else FieldEdges.atField e f' := by
  rw [FieldEdges.atField, FieldEdges.add, SortedMap.get?_insert]
  split <;> rfl

theorem object?_ofFamily (family : Nat) (id : HeapId) :
    (ofFamily family).object? id = if id = HeapId.null then some .null else none := by
  rw [object?, node?, ofFamily, empty, SortedMap.get?_insert]
  split <;> rfl

theorem fieldTargets_ofFamily (family : Nat) (id : HeapId) (f : FieldRef) :
    (ofFamily family).fieldTargets id f = .empty := by
  by_cases hid : id = HeapId.null
  · rw [hid]
    rfl
  · refine fieldTargets_of_none ?_ f
    rw [object?_ofFamily, if_neg hid]

/-! ## Edges of variables -/

private theorem shown_attach (g : HeapGraph) (x : Variable) (a id : HeapId) :
    ((g.attach x a).node? id).map shown = (g.node? id).map shown :=
  shown_modify g.nodes (fun n => n.addVariable x) (fun _ => rfl) a id

@[simp] theorem object?_attach : (g.attach x a).object? id = g.object? id :=
  object?_congr (shown_attach g x a id)

@[simp] theorem fieldTargets_attach : (g.attach x a).fieldTargets id f = g.fieldTargets id f :=
  fieldTargets_congr (shown_attach g x a id) f

theorem targets_insert (g : HeapGraph) (x y : Variable) (ids : SortedSet HeapId) :
    targets { g with bindings := g.bindings.insert x ids } y =
      if y = x then ids else g.targets y := by
  rw [targets, SortedMap.get?_insert]
  split <;> rfl

theorem targets_attach : (g.attach x a).targets y =
    if y = x then (g.targets x).insert a else g.targets y :=
  targets_insert g x y _

theorem mem_targets_attach :
    id ∈ (g.attach x a).targets y ↔ (y = x ∧ id = a) ∨ id ∈ g.targets y := by
  rw [targets_attach]
  split
  · next hy => simp [hy]
  · next hy => simp [hy]

private theorem shown_detach (g : HeapGraph) (x : Variable) (id : HeapId) :
    ((g.detach x).node? id).map shown = (g.node? id).map shown := by
  unfold detach
  split
  · rfl
  · next ids _ =>
    show (((ids.toList.foldl _ g.nodes).get? id).map shown) = ((g.nodes.get? id).map shown)
    generalize g.nodes = nodes
    induction ids.toList generalizing nodes with
    | nil => rfl
    | cons a rest ih =>
        rw [List.foldl_cons, ih]
        exact shown_modify nodes (fun n => n.dropVariable x) (fun _ => rfl) a id

@[simp] theorem object?_detach : (g.detach x).object? id = g.object? id :=
  object?_congr (shown_detach g x id)

@[simp] theorem fieldTargets_detach : (g.detach x).fieldTargets id f = g.fieldTargets id f :=
  fieldTargets_congr (shown_detach g x id) f

theorem targets_detach : (g.detach x).targets y = if y = x then .empty else g.targets y := by
  unfold detach
  split
  · next hx =>
    split
    · next hy => rw [hy, targets, hx]; rfl
    · rfl
  · exact targets_insert g x y _

theorem pointsTo_eq_ok_iff :
    g.pointsTo x id = .ok u ↔ g.contains id = true ∧ u = g.attach x id := by
  rw [pointsTo]
  split
  · next hid => simp [hid, eq_comm]
  · next hid => simp [hid]

/-! ## Edges of fields -/

private theorem node?_attachField (g : HeapGraph) (a : HeapId) (f : FieldRef) (t id : HeapId) :
    ((g.attachField a f t).node? id).map shown =
      if id = a then (g.node? a).map fun n => shown (n.addTarget f t)
      else (g.node? id).map shown := by
  rw [attachField, node?, shown_modify _ (fun n => n.addSource f a) (fun _ => rfl) t id,
    SortedMap.get?_modify]
  split
  · rw [Option.map_map]
    rfl
  · rfl

@[simp] theorem object?_attachField : (g.attachField a f t).object? id = g.object? id := by
  have hshown := congrArg (Option.map Prod.fst) (node?_attachField g a f t id)
  rw [Option.map_map] at hshown
  refine Eq.trans hshown ?_
  split
  · next hid =>
    rw [hid, Option.map_map]
    rfl
  · rw [Option.map_map]
    rfl

@[simp] theorem targets_attachField : (g.attachField a f t).targets x = g.targets x := rfl

/-- An edge of a field is added to the object that it leaves, if there is
one. -/
theorem mem_fieldTargets_attachField (ha : g.contains a = true) :
    id ∈ (g.attachField a f t).fieldTargets b f' ↔
      (b = a ∧ f' = f ∧ id = t) ∨ id ∈ g.fieldTargets b f' := by
  rw [fieldTargets_eq, node?_attachField]
  split
  · next hb =>
    subst hb
    obtain ⟨n, hn⟩ := Option.isSome_iff_exists.1 ha
    have hnode : g.node? b = some n := hn
    rw [hnode, Option.map_some, Option.map_some, Option.getD_some]
    show id ∈ FieldEdges.atField (FieldEdges.add n.targets f t) f' ↔ _
    rw [atField_add, fieldTargets, hnode]
    split
    · next hf => simp [hf]
    · next hf => simp [hf]
  · next hb =>
    rw [← fieldTargets_eq]
    simp [hb]

theorem pointsToField_eq_ok_iff : g.pointsToField a f t = .ok u ↔
    g.contains a = true ∧ g.contains t = true ∧ u = g.attachField a f t := by
  rw [pointsToField]
  split
  · next ha =>
    split
    · next ht => simp [ha, ht, eq_comm]
    · next ht => simp [ht]
  · next ha => simp [ha]

/-! ## Objects -/

theorem object?_place : (g.place object).object? id =
    if id = object.id then some object else g.object? id := by
  rw [object?, place, node?, SortedMap.get?_insert]
  split <;> rfl

@[simp] theorem targets_place : (g.place object).targets x = g.targets x := rfl

/-- A node that is new has no edges, and neither had its id before. -/
theorem fieldTargets_place (hnew : g.object? object.id = none) :
    (g.place object).fieldTargets id f = g.fieldTargets id f := by
  by_cases hid : id = object.id
  · rw [hid, fieldTargets_of_none hnew, fieldTargets, place, node?, SortedMap.get?_insert,
      if_pos rfl]
    rfl
  · rw [fieldTargets, place, node?, SortedMap.get?_insert, if_neg hid]
    rfl

/-- What it means that an object has been added. -/
structure Adds (g u : HeapGraph) (object : HeapObject) : Prop where
  fresh : g.object? object.id = none ∨ g.object? object.id = some object
  object? : ∀ id, u.object? id = if id = object.id then some object else g.object? id
  targets : ∀ x, u.targets x = g.targets x
  fieldTargets : ∀ id f, u.fieldTargets id f = g.fieldTargets id f

private theorem adds_place {bound : HeapGraph} (hnodes : bound.nodes = g.nodes)
    (hbindings : bound.bindings = g.bindings) (hnone : g.object? object.id = none) :
    g.Adds (bound.place object) object := by
  have hobject : ∀ a, bound.object? a = g.object? a := fun a => by
    rw [HeapGraph.object?, node?, hnodes]
    rfl
  refine ⟨.inl hnone, fun a => ?_, fun x => ?_, fun a f => ?_⟩
  · rw [object?_place, hobject]
  · rw [targets_place, HeapGraph.targets, hbindings]
    rfl
  · rw [fieldTargets_place ((hobject _).trans hnone), HeapGraph.fieldTargets, node?, hnodes]
    rfl

theorem adds_of_addObject (h : g.addObject object = .ok u) : g.Adds u object := by
  rw [addObject] at h
  split at h
  · next n hn =>
    split at h
    · next hsame =>
      cases h
      have hobject : g.object? object.id = some object := by
        rw [HeapGraph.object?, hn, Option.map_some, hsame]
      refine ⟨.inr hobject, fun id => ?_, fun _ => rfl, fun _ _ => rfl⟩
      split
      · next hid => rw [hid, hobject]
      · rfl
    · cases h
  · next hn =>
    cases h
    exact adds_place rfl rfl (by rw [HeapGraph.object?, hn, Option.map_none])

/-- An object is created under the next id, which has been free before. -/
theorem adds_of_create {ids : Allocator} {kind : ObjectKind} {type : Option TypeName}
    {offset : Option Offset} (h : (g.create ids kind type offset).result = .ok id) :
    id = ids.next ∧ (g.create ids kind type offset).ids.next = ids.next + 1 ∧
      g.object? id = none ∧
      g.Adds (g.create ids kind type offset).graph ⟨id, kind, type, offset⟩ := by
  unfold create Allocator.allocate at h ⊢
  by_cases hnext : ids.next < HeapId.max
  · simp only [if_pos hnext] at h ⊢
    cases hbind : g.bind? ids.family with
    | none =>
        simp only [hbind] at h
        cases h
    | some bound =>
        simp only [hbind] at h ⊢
        have hsame : bound.nodes = g.nodes ∧ bound.bindings = g.bindings := by
          unfold bind? at hbind
          split at hbind
          · split at hbind
            · cases hbind
              exact ⟨rfl, rfl⟩
            · cases hbind
          · cases hbind
            exact ⟨rfl, rfl⟩
        by_cases hcontains : bound.contains ids.next = true
        · rw [if_pos hcontains] at h
          cases h
        · rw [if_neg hcontains] at h ⊢
          cases h
          have hnone : g.object? ids.next = none := by
            rw [← contains_eq_false_iff, contains, ← hsame.1]
            simpa [contains] using hcontains
          exact ⟨rfl, rfl, hnone, adds_place hsame.1 hsame.2 hnone⟩
  · simp only [if_neg hnext] at h
    cases h

/-! ## Unions -/

/-- Every object is kept under its own id. -/
def Keyed (g : HeapGraph) : Prop := ∀ id object, g.object? id = some object → object.id = id

theorem Keyed.mem_values (hg : g.Keyed) {n : HeapNode} :
    n ∈ g.nodes.values ↔ g.node? n.object.id = some n := by
  simp only [SortedMap.values, List.mem_map]
  constructor
  · rintro ⟨⟨id, m⟩, hentry, rfl⟩
    have hget : g.node? id = some m := SortedMap.get?_eq_some_iff.2 hentry
    have hid : m.object.id = id := hg id m.object (by rw [object?, hget, Option.map_some])
    rw [hid]
    exact hget
  · intro hget
    exact ⟨(n.object.id, n), SortedMap.get?_eq_some_iff.1 hget, rfl⟩

/-- Where both graphs have an object, it is the same. -/
def Agree (g h : HeapGraph) : Prop :=
  ∀ id a b, g.object? id = some a → h.object? id = some b → a = b

theorem objectClash?_eq_none_iff : g.objectClash? h = none ↔ g.Agree h := by
  rw [objectClash?, Option.map_eq_none_iff, List.find?_eq_none]
  constructor
  · intro hclash id a b ha hb
    obtain ⟨n, hn, rfl⟩ := Option.map_eq_some_iff.1 ha
    obtain ⟨m, hm, rfl⟩ := Option.map_eq_some_iff.1 hb
    have hnot := hclash (id, m) (SortedMap.get?_eq_some_iff.1 hm)
    simpa [hn] using hnot
  · rintro hagree ⟨id, m⟩ hm
    have hb : h.object? id = some m.object := by
      rw [object?, node?, SortedMap.get?_eq_some_iff.2 hm, Option.map_some]
    cases hn : g.node? id with
    | none => simp
    | some n =>
        have ha : g.object? id = some n.object := by rw [object?, hn, Option.map_some]
        simp [hagree id _ _ ha hb]

/-- What two graphs must agree on to be united: the family, if both are bound
to one, and the objects of the ids that both use. -/
structure Compatible (g h : HeapGraph) : Prop where
  family : ∀ a b, g.family = some a → h.family = some b → a = b
  objects : g.Agree h

theorem collision?_eq_none_iff : g.collision? h = none ↔ g.Compatible h := by
  unfold collision?
  split
  · next a b ha hb =>
    split
    · next hsame =>
      rw [objectClash?_eq_none_iff]
      refine ⟨fun hagree => ⟨fun c d hc hd => ?_, hagree⟩, Compatible.objects⟩
      rw [← Option.some.inj (ha.symm.trans hc), ← Option.some.inj (hb.symm.trans hd), hsame]
    · next hdiffer => exact ⟨nofun, fun hcompatible => absurd (hcompatible.family a b ha hb) hdiffer⟩
  · next hunbound =>
    rw [objectClash?_eq_none_iff]
    exact ⟨fun hagree => ⟨fun a b ha hb => absurd hb (hunbound a b ha), hagree⟩,
      Compatible.objects⟩

theorem object?_absorbObjects (hh : h.Keyed) (hagree : g.Agree h) :
    (g.absorbObjects h).object? id = some object ↔
      g.object? id = some object ∨ h.object? id = some object := by
  have hmember : (∃ n ∈ h.nodes.values, id = n.object.id ∧ n.object = object) ↔
      h.object? id = some object := by
    constructor
    · rintro ⟨n, hn, rfl, rfl⟩
      rw [object?, hh.mem_values.1 hn, Option.map_some]
    · intro hobject
      obtain ⟨n, hn, rfl⟩ := Option.map_eq_some_iff.1 hobject
      have hid : n.object.id = id := hh id _ hobject
      exact ⟨n, hh.mem_values.2 (hid ▸ hn), hid.symm, rfl⟩
  rw [← hmember]
  have hvalue : ∀ n ∈ h.nodes.values, h.object? n.object.id = some n.object := by
    intro n hn
    rw [object?, hh.mem_values.1 hn, Option.map_some]
  refine foldl_iff (I := fun b : HeapGraph => b.Agree h)
    (Q := fun b : HeapGraph => b.object? id = some object) ?_ ?_ hagree
  · intro b n hn hb
    split
    · exact hb
    · intro id' o o' ho ho'
      rw [object?_place] at ho
      split at ho
      · next hid =>
        rw [hid, hvalue n hn] at ho'
        exact (Option.some.inj ho).symm.trans (Option.some.inj ho')
      · exact hb id' o o' ho ho'
  · intro b n hn hb
    split
    · next hcontains =>
      refine ⟨.inl, ?_⟩
      rintro (hobject | ⟨rfl, rfl⟩)
      · exact hobject
      · obtain ⟨o, ho⟩ := contains_iff.1 hcontains
        rw [ho, hb _ _ _ ho (hvalue n hn)]
    · next hcontains =>
      have hnone : b.object? n.object.id = none :=
        contains_eq_false_iff.1 (by simpa using hcontains)
      rw [object?_place]
      split
      · next hid => simp [hid, hnone]
      · next hid => simp [hid]

private theorem edges_absorbObjects (g h : HeapGraph) :
    (∀ x, (g.absorbObjects h).targets x = g.targets x) ∧
      ∀ id f, (g.absorbObjects h).fieldTargets id f = g.fieldTargets id f := by
  unfold absorbObjects
  refine List.foldlRecOn (motive := fun b : HeapGraph => (∀ x, b.targets x = g.targets x) ∧
    ∀ id f, b.fieldTargets id f = g.fieldTargets id f) _ _ ⟨fun _ => rfl, fun _ _ => rfl⟩ ?_
  rintro b ⟨htargets, hfields⟩ n -
  split
  · exact ⟨htargets, hfields⟩
  · next hcontains =>
    have hnone : b.object? n.object.id = none :=
      contains_eq_false_iff.1 (by simpa using hcontains)
    exact ⟨htargets, fun id f => (fieldTargets_place hnone).trans (hfields id f)⟩

/-- Lets a variable refer to some more objects. -/
private def attachAll (g : HeapGraph) (e : Variable × SortedSet HeapId) : HeapGraph :=
  e.2.toList.foldl (fun g id => g.attach e.1 id)
    { g with bindings := g.bindings.insert e.1 (g.targets e.1) }

private theorem mem_targets_attachAll (e : Variable × SortedSet HeapId) :
    id ∈ (g.attachAll e).targets x ↔ id ∈ g.targets x ∨ (x = e.1 ∧ id ∈ e.2) := by
  have hfold := foldl_iff (f := fun g id => attach g e.1 id) (I := fun _ => True)
    (Q := fun b => id ∈ b.targets x) (P := fun a => x = e.1 ∧ id = a) (l := e.2.toList)
    (fun _ _ _ _ => trivial) (fun b a _ _ => by rw [mem_targets_attach, or_comm])
    (b := { g with bindings := g.bindings.insert e.1 (g.targets e.1) }) trivial
  refine hfold.trans (or_congr ?_ ?_)
  · rw [targets_insert]
    split
    · next hx => rw [hx]
    · rfl
  · simp [and_comm]

private theorem rest_attachAll (g : HeapGraph) (e : Variable × SortedSet HeapId) :
    (∀ id, (g.attachAll e).object? id = g.object? id) ∧
      ∀ id f, (g.attachAll e).fieldTargets id f = g.fieldTargets id f := by
  unfold attachAll
  refine List.foldlRecOn (motive := fun b : HeapGraph => (∀ id, b.object? id = g.object? id) ∧
    ∀ id f, b.fieldTargets id f = g.fieldTargets id f) _ _ ⟨fun _ => rfl, fun _ _ => rfl⟩ ?_
  rintro b ⟨hobjects, hfields⟩ a -
  exact ⟨fun id => object?_attach.trans (hobjects id),
    fun id f => fieldTargets_attach.trans (hfields id f)⟩

private theorem mem_targets_absorbVariables :
    id ∈ (g.absorbVariables h).targets x ↔ id ∈ g.targets x ∨ id ∈ h.targets x := by
  have hmember : (∃ e ∈ h.bindings.toList, x = e.1 ∧ id ∈ e.2) ↔ id ∈ h.targets x := by
    rw [targets, SortedMap.mem_getD_get?]
    constructor
    · rintro ⟨⟨y, ids⟩, hentry, rfl, hid⟩
      exact ⟨ids, hentry, hid⟩
    · rintro ⟨ids, hentry, hid⟩
      exact ⟨(x, ids), hentry, rfl, hid⟩
  rw [← hmember]
  exact foldl_iff (f := attachAll) (I := fun _ => True) (Q := fun b => id ∈ b.targets x)
    (fun _ _ _ _ => trivial) (fun b e _ _ => mem_targets_attachAll e) trivial

private theorem rest_absorbVariables (g h : HeapGraph) :
    (∀ id, (g.absorbVariables h).object? id = g.object? id) ∧
      ∀ id f, (g.absorbVariables h).fieldTargets id f = g.fieldTargets id f := by
  refine List.foldlRecOn (motive := fun b : HeapGraph => (∀ id, b.object? id = g.object? id) ∧
    ∀ id f, b.fieldTargets id f = g.fieldTargets id f) h.bindings.toList attachAll
    ⟨fun _ => rfl, fun _ _ => rfl⟩ ?_
  rintro b ⟨hobjects, hfields⟩ e -
  obtain ⟨hobjects', hfields'⟩ := rest_attachAll b e
  exact ⟨fun id => (hobjects' id).trans (hobjects id),
    fun id f => (hfields' id f).trans (hfields id f)⟩

/-- The edges of the fields of a node, as triples. -/
private def fieldTriples (h : HeapGraph) : List (HeapId × FieldRef × HeapId) :=
  h.nodes.values.flatMap fun n => n.targets.toList.flatMap fun e => e.2.toList.map fun t =>
    (n.object.id, e.1, t)

private theorem absorbFields_eq (g h : HeapGraph) : g.absorbFields h =
    h.fieldTriples.foldl (fun g e => g.attachField e.1 e.2.1 e.2.2) g := by
  simp only [absorbFields, fieldTriples, List.foldl_flatMap, List.foldl_map]

private theorem Keyed.mem_fieldTriples (hh : h.Keyed) :
    (a, f, t) ∈ h.fieldTriples ↔ t ∈ h.fieldTargets a f := by
  simp only [fieldTriples, List.mem_flatMap, List.mem_map, Prod.mk.injEq]
  constructor
  · rintro ⟨n, hn, e, he, t, ht, rfl, rfl, rfl⟩
    rw [fieldTargets, hh.mem_values.1 hn]
    exact SortedMap.mem_getD_get?.2 ⟨e.2, he, ht⟩
  · intro ht
    rw [fieldTargets] at ht
    split at ht
    · next n hn =>
      have hid : n.object.id = a := hh a n.object (by rw [object?, hn, Option.map_some])
      obtain ⟨ids, hentry, ht⟩ := SortedMap.mem_getD_get?.1 ht
      exact ⟨n, hh.mem_values.2 (hid ▸ hn), (f, ids), hentry, t, ht, hid, rfl, rfl⟩
    · exact absurd ht (SortedSet.not_mem_empty t)

private theorem rest_absorbFields (g h : HeapGraph) :
    (∀ id, (g.absorbFields h).object? id = g.object? id) ∧
      ∀ x, (g.absorbFields h).targets x = g.targets x := by
  rw [absorbFields_eq]
  refine List.foldlRecOn (motive := fun b : HeapGraph => (∀ id, b.object? id = g.object? id) ∧
    ∀ x, b.targets x = g.targets x) _ _ ⟨fun _ => rfl, fun _ => rfl⟩ ?_
  rintro b ⟨hobjects, htargets⟩ e -
  exact ⟨fun id => object?_attachField.trans (hobjects id), htargets⟩

private theorem mem_fieldTargets_absorbFields (hh : h.Keyed)
    (hcontains : ∀ a t f, t ∈ h.fieldTargets a f → g.contains a = true) :
    id ∈ (g.absorbFields h).fieldTargets b f ↔
      id ∈ g.fieldTargets b f ∨ id ∈ h.fieldTargets b f := by
  have hmember : (∃ e ∈ h.fieldTriples, b = e.1 ∧ f = e.2.1 ∧ id = e.2.2) ↔
      id ∈ h.fieldTargets b f := by
    rw [← hh.mem_fieldTriples]
    constructor
    · rintro ⟨e, he, rfl, rfl, rfl⟩
      exact he
    · exact fun he => ⟨_, he, rfl, rfl, rfl⟩
  rw [← hmember, absorbFields_eq]
  refine foldl_iff
    (I := fun u : HeapGraph => ∀ a t f, t ∈ h.fieldTargets a f → u.contains a = true)
    (Q := fun u : HeapGraph => id ∈ u.fieldTargets b f) ?_ ?_ hcontains
  · intro u e _ hu a t f ht
    rw [contains_iff, object?_attachField, ← contains_iff]
    exact hu a t f ht
  · intro u e he hu
    rw [mem_fieldTargets_attachField (hu _ _ _ (hh.mem_fieldTriples.1 he)), or_comm]

/-- What a successful union does, step by step. -/
private theorem union_eq_ok (hu : g.union h = .ok u) :
    g.Agree h ∧ ∃ bound : HeapGraph, (∀ id, bound.object? id = g.object? id) ∧
      (∀ x, bound.targets x = g.targets x) ∧
      (∀ id f, bound.fieldTargets id f = g.fieldTargets id f) ∧
      u = ((bound.absorbObjects h).absorbVariables h).absorbFields h := by
  rw [union] at hu
  split at hu
  · cases hu
  · next hclash =>
    cases hu
    exact ⟨(collision?_eq_none_iff.1 hclash).objects, { g with family := g.family.or h.family },
      fun _ => rfl, fun _ => rfl, fun _ _ => rfl, rfl⟩

/-- The objects of a union. -/
theorem object?_union (hh : h.Keyed) (hu : g.union h = .ok u) :
    u.object? id = some object ↔ g.object? id = some object ∨ h.object? id = some object := by
  obtain ⟨hagree, bound, hobjects, -, -, rfl⟩ := union_eq_ok hu
  have hbound : bound.Agree h := fun id a b ha hb => hagree id a b (hobjects id ▸ ha) hb
  rw [(rest_absorbFields _ h).1, (rest_absorbVariables _ h).1,
    object?_absorbObjects hh hbound, hobjects]

/-- What a variable may refer to in a union. -/
theorem mem_targets_union (hu : g.union h = .ok u) :
    id ∈ u.targets x ↔ id ∈ g.targets x ∨ id ∈ h.targets x := by
  obtain ⟨-, bound, -, htargets, -, rfl⟩ := union_eq_ok hu
  rw [(rest_absorbFields _ h).2, mem_targets_absorbVariables, (edges_absorbObjects _ h).1,
    htargets]

/-- What a field may refer to in a union. -/
theorem mem_fieldTargets_union (hh : h.Keyed) (hu : g.union h = .ok u) :
    id ∈ u.fieldTargets a f ↔ id ∈ g.fieldTargets a f ∨ id ∈ h.fieldTargets a f := by
  obtain ⟨hagree, bound, hobjects, -, hfields, rfl⟩ := union_eq_ok hu
  have hbound : bound.Agree h := fun id a b ha hb => hagree id a b (hobjects id ▸ ha) hb
  rw [mem_fieldTargets_absorbFields hh, (rest_absorbVariables _ h).2,
    (edges_absorbObjects _ h).2, hfields]
  intro a t f ht
  rw [contains_iff, (rest_absorbVariables _ h).1]
  cases hobject : h.object? a with
  | none =>
      rw [fieldTargets_of_none hobject] at ht
      exact absurd ht (SortedSet.not_mem_empty t)
  | some object => exact ⟨object, (object?_absorbObjects hh hbound).2 (.inr hobject)⟩

/-! ## Graphs that count as the same -/

/-- The edges of one graph are edges of the other one. -/
structure Within (g h : HeapGraph) : Prop where
  targets : ∀ x id, id ∈ g.targets x → id ∈ h.targets x
  fieldTargets : ∀ a f id, id ∈ g.fieldTargets a f → id ∈ h.fieldTargets a f

theorem Within.refl (g : HeapGraph) : g.Within g := ⟨fun _ _ h => h, fun _ _ _ h => h⟩

theorem Within.trans (hgh : g.Within h) (hhu : h.Within u) : g.Within u :=
  ⟨fun x id hid => hhu.targets x id (hgh.targets x id hid),
    fun a f id hid => hhu.fieldTargets a f id (hgh.fieldTargets a f id hid)⟩

theorem nodup_keys (nodes : SortedMap HeapId HeapNode) : nodes.keys.Nodup := by
  refine List.pairwise_map.2 (nodes.ascending.imp ?_)
  intro e e' hlt heq
  rw [heq, Ordered.before_irrefl] at hlt
  cases hlt

/-- Graphs that count as the same have the same edges. -/
theorem edges_of_sameEdges (hsame : g.sameEdges h = true) :
    (∀ x, g.targets x = h.targets x) ∧ ∀ id f, g.fieldTargets id f = h.fieldTargets id f := by
  simp only [sameEdges, Bool.and_eq_true, beq_iff_eq, List.all_eq_true] at hsame
  obtain ⟨⟨hbindings, hsize⟩, hnodes⟩ := hsame
  have hnode : ∀ id n, g.node? id = some n → ∃ m, h.node? id = some m ∧ n.targets = m.targets := by
    intro id n hn
    have hall := hnodes (id, n) (SortedMap.get?_eq_some_iff.1 hn)
    dsimp only at hall
    split at hall
    · next m hm =>
      simp only [HeapNode.sameEdges, Bool.and_eq_true, beq_iff_eq] at hall
      exact ⟨m, hm, hall.2⟩
    · cases hall
  -- The ids of `g` are ids of `h`, and there are as many of them.
  have hkeys : ∀ id, id ∈ h.nodes.keys → id ∈ g.nodes.keys := by
    have hsubset : g.nodes.keys ⊆ h.nodes.keys := by
      intro id hid
      obtain ⟨n, hn⟩ := SortedMap.mem_keys_iff.1 hid
      obtain ⟨m, hm, -⟩ := hnode id n hn
      exact SortedMap.mem_keys_iff.2 ⟨m, hm⟩
    have hlength : h.nodes.keys.length ≤ g.nodes.keys.length := by
      simp only [SortedMap.keys, List.length_map]
      exact Nat.le_of_eq hsize.symm
    exact fun id =>
      (((nodup_keys g.nodes).subperm hsubset).perm_of_length_le hlength).mem_iff.2
  refine ⟨fun x => by rw [targets, hbindings, targets], fun id f => ?_⟩
  rw [fieldTargets, fieldTargets]
  cases hg : g.node? id with
  | some n =>
      obtain ⟨m, hm, htargets⟩ := hnode id n hg
      rw [hm]
      exact congrArg (FieldEdges.atField · f) htargets
  | none =>
      cases hh : h.node? id with
      | none => rfl
      | some m =>
          obtain ⟨n, hn⟩ := SortedMap.mem_keys_iff.1
            (hkeys id (SortedMap.mem_keys_iff.2 ⟨m, hh⟩))
          have : g.node? id = some n := hn
          rw [hg] at this
          cases this

end HeapGraph

end MethodFlow
