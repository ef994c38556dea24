import MethodFlow.Proofs.Heap.Transfers

/-!
# Objects of the points-to analysis

Two graphs of the points-to analysis never disagree about an id: an object of
an instruction has a new id, which no other instruction and no parameter has.
Therefore the objects of all graphs can be read off the table and the graph at
the entry (`Known`), and graphs with the same edges are as good as equal.

A new id is safe only once its object has been put into a graph, since that is
where a clash would be found.  So tables and graphs are kept in order
together.

## Main results

* `PointsTo.Orderly.known_unique`: an id can stand for one object only.
* `PointsTo.inOrder_apply`: one instruction keeps tables and graphs in order.
* `PointsTo.starts_of_entry`: the graph at the entry is in order, and every
  parameter refers to an object of unknown origin.
* `PointsTo.carries`: the analysis carries its table.
-/

namespace MethodFlow

namespace PointsTo

variable {start g g' h : HeapGraph} {m m' : HeapSites} {s s' : Step} {x dest base : Variable}
  {f : FieldRef} {id : HeapId} {ids : List HeapId} {object : HeapObject} {kind : ObjectKind}
  {type : Option TypeName} {o : Offset} {i : Instruction} {code : List Instruction}

/-! ## Tables and graphs in order -/

/-- What the graph at the entry may hold: null, and objects of unknown origin
that no instruction has brought in. -/
structure Begins (start : HeapGraph) : Prop where
  null : start.object? HeapId.null = some .null
  outside : ∀ id object, start.object? id = some object → id ≠ HeapId.null →
    object.id = id ∧ object.kind = .unknown ∧ object.offset = none

/-- The objects that an id can stand for: the one of the graph at the entry,
or the one of an instruction. -/
def Known (start : HeapGraph) (m : HeapSites) (id : HeapId) (object : HeapObject) : Prop :=
  start.object? id = some object ∨ ∃ o, m.objects.get? o = some object ∧ object.id = id

/-- Ids are handed out once, and every object in the table suits the one
instruction that it belongs to. -/
structure Orderly (start : HeapGraph) (code : List Instruction) (m : HeapSites) : Prop where
  begins : Begins start
  offsets : ∀ i ∈ code, ∀ j ∈ code, i.offset = j.offset → i = j
  started : ∀ id object, start.object? id = some object → id = HeapId.null ∨ id < m.ids.next
  issued : ∀ o object, m.objects.get? o = some object →
    start.object? object.id = none ∧ object.id < m.ids.next
  distinct : ∀ o o' object object', m.objects.get? o = some object →
    m.objects.get? o' = some object' → object.id = object'.id → o = o'
  suits : ∀ o object, m.objects.get? o = some object → object.offset = some o ∧
    ∃ i ∈ code, i.offset = o ∧ i.op.heapEffect.siteKind? = some object.kind

/-- A graph holds null and known objects only, and its edges lead to
objects. -/
structure Legal (start : HeapGraph) (m : HeapSites) (g : HeapGraph) : Prop where
  null : g.object? HeapId.null = some .null
  known : ∀ id object, g.object? id = some object → Known start m id object
  targets : ∀ x id, id ∈ g.targets x → g.contains id = true
  fieldTargets : ∀ a f id, id ∈ g.fieldTargets a f → g.contains id = true

/-- The table and the graph of a step are in order. -/
structure InOrder (start : HeapGraph) (code : List Instruction) (s : Step) : Prop where
  table : Orderly start code s.2
  graph : Legal start s.2 s.1

theorem Known.mono (hextends : m.Extends m') (h : Known start m id object) :
    Known start m' id object := by
  rcases h with hstart | ⟨o, hget, hid⟩
  · exact .inl hstart
  · exact .inr ⟨o, hextends o object hget, hid⟩

/-- An id can stand for one object only. -/
theorem Orderly.known_unique (hm : Orderly start code m) {object' : HeapObject}
    (h : Known start m id object) (h' : Known start m id object') : object = object' := by
  rcases h with hstart | ⟨o, hget, hid⟩ <;> rcases h' with hstart' | ⟨o', hget', hid'⟩
  · exact Option.some.inj (hstart.symm.trans hstart')
  · rw [← hid', (hm.issued o' object' hget').1] at hstart
    cases hstart
  · rw [← hid, (hm.issued o object hget).1] at hstart'
    cases hstart'
  · have ho := hm.distinct o o' object object' hget hget' (hid.trans hid'.symm)
    rw [ho, hget'] at hget
    exact (Option.some.inj hget).symm

/-- The object of an instruction has the kind that the instruction asks
for. -/
theorem Orderly.kind_eq (hm : Orderly start code m) (hi : i ∈ code)
    (hget : m.objects.get? i.offset = some object) :
    i.op.heapEffect.siteKind? = some object.kind := by
  obtain ⟨-, j, hj, hoffset, hkind⟩ := hm.suits i.offset object hget
  rwa [hm.offsets j hj i hi hoffset] at hkind

theorem Begins.keyed (hstart : Begins start) (h : Known start m id object) : object.id = id := by
  rcases h with hobject | ⟨o, -, hid⟩
  · by_cases hnull : id = HeapId.null
    · rw [hnull, hstart.null] at hobject
      cases hobject
      exact hnull.symm
    · exact (hstart.outside id object hobject hnull).1
  · exact hid

namespace Legal

theorem keyed (hg : Legal start m g) (hstart : Begins start) : g.Keyed :=
  fun id object hobject => hstart.keyed (hg.known id object hobject)

/-- An id of a node stands for the object that is known for it. -/
theorem object?_of_known (hm : Orderly start code m) (hg : Legal start m g)
    (hid : g.contains id = true) (hknown : Known start m id object) :
    g.object? id = some object := by
  obtain ⟨old, hold⟩ := HeapGraph.contains_iff.1 hid
  rw [hold, hm.known_unique (hg.known id old hold) hknown]

theorem mono (hextends : m.Extends m') (hg : Legal start m g) : Legal start m' g :=
  ⟨hg.null, fun id object hobject => (hg.known id object hobject).mono hextends, hg.targets,
    hg.fieldTargets⟩

/-- A graph without edges that holds null is legal. -/
theorem ofFamily (hstart : Begins start) (m : HeapSites) (family : Nat) :
    Legal start m (.ofFamily family) := by
  refine ⟨by rw [HeapGraph.object?_ofFamily, if_pos rfl], fun id object hid => ?_,
    fun x id hid => ?_, fun a f id hid => ?_⟩
  · rw [HeapGraph.object?_ofFamily] at hid
    split at hid
    · next hnull =>
      cases hid
      exact .inl (hnull ▸ hstart.null)
    · cases hid
  · exact absurd hid (SortedSet.not_mem_empty id)
  · rw [HeapGraph.fieldTargets_ofFamily] at hid
    exact absurd hid (SortedSet.not_mem_empty id)

/-- Legality of a graph with the same objects. -/
theorem of_object? (hg : Legal start m g) (hobject : ∀ id, g'.object? id = g.object? id)
    (htargets : ∀ x id, id ∈ g'.targets x → g.contains id = true)
    (hfields : ∀ a f id, id ∈ g'.fieldTargets a f → g.contains id = true) : Legal start m g' := by
  have hcontains : ∀ id, g.contains id = true → g'.contains id = true := by
    intro id hid
    rw [HeapGraph.contains_iff, hobject, ← HeapGraph.contains_iff]
    exact hid
  refine ⟨by rw [hobject]; exact hg.null, fun id object hid => ?_, ?_, ?_⟩
  · rw [hobject] at hid
    exact hg.known id object hid
  · exact fun x id hid => hcontains id (htargets x id hid)
  · exact fun a f id hid => hcontains id (hfields a f id hid)

theorem rebinds (hg : Legal start m g) {P : HeapId → Prop} (hrebinds : Rebinds g g' dest P)
    (hP : ∀ id, P id → g.contains id = true) : Legal start m g' := by
  refine hg.of_object? hrebinds.object? (fun x id hid => ?_) (fun a f id hid => ?_)
  · by_cases hx : x = dest
    · rw [hx] at hid
      exact hP id ((hrebinds.assigned id).1 hid)
    · rw [hrebinds.others x hx] at hid
      exact hg.targets x id hid
  · rw [hrebinds.fieldTargets] at hid
    exact hg.fieldTargets a f id hid

theorem pointsTo (hg : Legal start m g) (hok : g.pointsTo x id = .ok g') : Legal start m g' := by
  obtain ⟨hid, rfl⟩ := HeapGraph.pointsTo_eq_ok_iff.1 hok
  refine hg.of_object? (fun _ => HeapGraph.object?_attach) (fun y a ha => ?_) (fun a f t ht => ?_)
  · rcases HeapGraph.mem_targets_attach.1 ha with ⟨-, rfl⟩ | ha
    · exact hid
    · exact hg.targets y a ha
  · rw [HeapGraph.fieldTargets_attach] at ht
    exact hg.fieldTargets a f t ht

theorem pointsToField (hg : Legal start m g) {a : HeapId}
    (hok : g.pointsToField a f id = .ok g') : Legal start m g' := by
  obtain ⟨ha, hid, rfl⟩ := HeapGraph.pointsToField_eq_ok_iff.1 hok
  refine hg.of_object? (fun _ => HeapGraph.object?_attachField) hg.targets (fun b f' t ht => ?_)
  rcases (HeapGraph.mem_fieldTargets_attachField ha).1 ht with ⟨-, -, rfl⟩ | ht
  · exact hid
  · exact hg.fieldTargets b f' t ht

/-- A known object may be added. -/
theorem adds (hg : Legal start m g) (hadds : g.Adds g' object)
    (hknown : Known start m object.id object) : Legal start m g' := by
  have hopens := opens_of_adds hadds
  refine ⟨hopens.object? _ _ hg.null, fun id old hold => ?_, fun x id hid => ?_,
    fun a f id hid => ?_⟩
  · rw [hadds.object?] at hold
    split at hold
    · next hid =>
      cases hold
      exact hid ▸ hknown
    · exact hg.known id old hold
  · rw [hadds.targets] at hid
    exact hopens.contains (hg.targets x id hid)
  · rw [hadds.fieldTargets] at hid
    exact hopens.contains (hg.fieldTargets a f id hid)

theorem union {u : HeapGraph} (hstart : Begins start) (hg : Legal start m g)
    (hh : Legal start m h) (hu : g.union h = .ok u) : Legal start m u := by
  have hobject : ∀ {id object}, u.object? id = some object ↔
      g.object? id = some object ∨ h.object? id = some object :=
    HeapGraph.object?_union (hh.keyed hstart) hu
  have hcontains : ∀ id, g.contains id = true ∨ h.contains id = true → u.contains id = true := by
    intro id hid
    simp only [HeapGraph.contains_iff] at hid ⊢
    rcases hid with ⟨object, hid⟩ | ⟨object, hid⟩
    · exact ⟨object, hobject.2 (.inl hid)⟩
    · exact ⟨object, hobject.2 (.inr hid)⟩
  refine ⟨hobject.2 (.inl hg.null), fun id object hid => ?_, fun x id hid => ?_,
    fun a f id hid => ?_⟩
  · rcases hobject.1 hid with hid | hid
    · exact hg.known id object hid
    · exact hh.known id object hid
  · exact hcontains id (((HeapGraph.mem_targets_union hu).1 hid).imp (hg.targets x id)
      (hh.targets x id))
  · exact hcontains id (((HeapGraph.mem_fieldTargets_union (hh.keyed hstart) hu).1 hid).imp
      (hg.fieldTargets a f id) (hh.fieldTargets a f id))

end Legal

/-! ## Steps keep the order -/

/-- A new id does not stand for anything yet. -/
private theorem fresh_next (hm : Orderly start code m) (hg : Legal start m g)
    (hadds : g.Adds g' object) (hobject : object = ⟨m.ids.next, kind, type, some o⟩) :
    start.object? object.id = none := by
  have hne : object.id ≠ HeapId.null := by
    intro hnull
    rcases hadds.fresh with hnone | hsame
    · rw [hnull, hg.null] at hnone
      cases hnone
    · rw [hnull, hg.null, Option.some.injEq] at hsame
      rw [← hsame] at hobject
      have hoffset : HeapObject.null.offset = some o := by rw [hobject]
      cases hoffset
  rw [Option.eq_none_iff_forall_ne_some]
  intro old hold
  rcases hm.started _ old hold with hnull | hlt
  · exact hne hnull
  · rw [hobject] at hlt
    exact Nat.lt_irrefl _ hlt

/-- The object of an instruction keeps the order when it has been put into the
graph. -/
theorem inOrder_site (hs : InOrder start code (g, m)) (hi : i ∈ code)
    (hkind : i.op.heapEffect.siteKind? = some kind)
    (hsite : m.site i.offset kind type = .ok (object, m')) (hadd : g.addObject object = .ok g') :
    InOrder start code (g', m') := by
  obtain ⟨hm, hg⟩ := hs
  have hadds := HeapGraph.adds_of_addObject hadd
  have hknown : Known start m' object.id object :=
    .inr ⟨i.offset, HeapSites.get?_site hsite, rfl⟩
  have hlegal := (hg.mono (HeapSites.extends_site hsite)).adds hadds hknown
  rcases HeapSites.site_cases hsite with ⟨-, rfl⟩ | ⟨-, hobject, hnext, hobjects⟩
  · exact ⟨hm, hlegal⟩
  have hfresh := fresh_next hm hg hadds hobject
  have hid : object.id = m.ids.next := by rw [hobject]
  have hget : ∀ o old, m'.objects.get? o = some old →
      (o = i.offset ∧ old = object) ∨ m.objects.get? o = some old := by
    intro o old hold
    rw [hobjects, SortedMap.get?_insert] at hold
    split at hold
    · next ho => exact .inl ⟨ho, (Option.some.inj hold).symm⟩
    · exact .inr hold
  refine ⟨⟨hm.begins, hm.offsets, fun id old hold => ?_, fun o old hold => ?_,
    fun o o' a b ha hb hab => ?_, fun o old hold => ?_⟩, hlegal⟩
  · rw [hnext]
    exact (hm.started id old hold).imp_right Nat.lt_succ_of_lt
  · rw [hnext]
    rcases hget o old hold with ⟨-, rfl⟩ | hold
    · exact ⟨hfresh, hid ▸ Nat.lt_succ_self _⟩
    · exact ⟨(hm.issued o old hold).1, Nat.lt_succ_of_lt (hm.issued o old hold).2⟩
  · rcases hget o a ha with ⟨rfl, rfl⟩ | ha <;> rcases hget o' b hb with ⟨rfl, rfl⟩ | hb
    · rfl
    · have hlt := (hm.issued o' b hb).2
      rw [← hab, hid] at hlt
      exact absurd hlt (Nat.lt_irrefl _)
    · have hlt := (hm.issued o a ha).2
      rw [hab, hid] at hlt
      exact absurd hlt (Nat.lt_irrefl _)
    · exact hm.distinct o o' a b ha hb hab
  · rcases hget o old hold with ⟨rfl, rfl⟩ | hold
    · exact ⟨by rw [hobject], i, hi, rfl, by rw [hkind, hobject]⟩
    · exact hm.suits o old hold

theorem keeps_inOrder (hi : i ∈ code) : Keeps (InOrder start code) i where
  detach _ hs := ⟨hs.table, hs.graph.rebinds (rebinds_detach _ _) fun _ => False.elim⟩
  pointsTo _ hs hok := ⟨hs.table, hs.graph.pointsTo hok⟩
  pointsToField _ hs hok := ⟨hs.table, hs.graph.pointsToField hok⟩
  site hkind hs hsite hadd := inOrder_site hs hi hkind hsite hadd

/-- One instruction keeps the table and the graph in order. -/
theorem inOrder_apply (hs : InOrder start code s) (hi : i ∈ code) (hok : apply s i = .ok s') :
    InOrder start code s' :=
  (keeps_inOrder hi).apply hs hok

/-! ## The entry -/

/-- The graph and the allocator while parameters are added. -/
structure Entered (s : HeapGraph × Allocator) : Prop where
  begins : Begins s.1
  started : ∀ id object, s.1.object? id = some object → id = HeapId.null ∨ id < s.2.next
  targets : ∀ x id, id ∈ s.1.targets x → s.1.contains id = true
  fieldTargets : ∀ a f id, id ∈ s.1.fieldTargets a f → s.1.contains id = true

theorem entered_ofFamily (ids : Allocator) : Entered (.ofFamily ids.family, ids) := by
  have hnull : ∀ id object, (HeapGraph.ofFamily ids.family).object? id = some object →
      id = HeapId.null := by
    intro id object hid
    rw [HeapGraph.object?_ofFamily] at hid
    split at hid
    · next hnull => exact hnull
    · cases hid
  refine ⟨⟨by rw [HeapGraph.object?_ofFamily, if_pos rfl], ?_⟩, ?_, ?_, ?_⟩
  · exact fun id object hid hne => absurd (hnull id object hid) hne
  · exact fun id object hid => .inl (hnull id object hid)
  · exact fun x id hid => absurd hid (SortedSet.not_mem_empty id)
  · intro a f id hid
    rw [HeapGraph.fieldTargets_ofFamily] at hid
    exact absurd hid (SortedSet.not_mem_empty id)

/-- A parameter comes in with an object of its own under the next id. -/
private theorem admits_addParameter {s s' : HeapGraph × Allocator}
    (hok : addParameter s x = .ok s') :
    s'.2.next = s.2.next + 1 ∧ s.1.object? s.2.next = none ∧
      ∃ g, s.1.Adds g ⟨s.2.next, .unknown, x.type, none⟩ ∧ s'.1 = g.attach x s.2.next := by
  obtain ⟨id, hid, hok⟩ := bind_eq_ok.1 hok
  obtain ⟨g, hpoints, hok⟩ := bind_eq_ok.1 hok
  obtain ⟨-, rfl⟩ := HeapGraph.pointsTo_eq_ok_iff.1 hpoints
  cases hok
  obtain ⟨rfl, hnext, hnone, hadds⟩ := HeapGraph.adds_of_create hid
  exact ⟨hnext, hnone, _, hadds, rfl⟩

theorem entered_addParameter {s s' : HeapGraph × Allocator} (hs : Entered s)
    (hok : addParameter s x = .ok s') : Entered s' := by
  obtain ⟨hnext, hnone, g, hadds, hg⟩ := admits_addParameter hok
  have hopens := opens_of_adds hadds
  have hobject : ∀ id, s'.1.object? id = g.object? id := fun id => by
    rw [hg, HeapGraph.object?_attach]
  have hcontains : ∀ id, s.1.contains id = true → s'.1.contains id = true := by
    intro id hid
    rw [HeapGraph.contains_iff, hobject, ← HeapGraph.contains_iff]
    exact hopens.contains hid
  refine ⟨⟨?_, fun id old hold hne => ?_⟩, fun id old hold => ?_, fun y id hid => ?_,
    fun a f id hid => ?_⟩
  · rw [hobject]
    exact hopens.object? _ _ hs.begins.null
  · rw [hobject, hadds.object?] at hold
    split at hold
    · next hid =>
      cases hold
      exact ⟨hid.symm, rfl, rfl⟩
    · exact hs.begins.outside id old hold hne
  · rw [hnext]
    rw [hobject, hadds.object?] at hold
    split at hold
    · next hid =>
      rw [hid]
      exact .inr (Nat.lt_succ_self _)
    · exact (hs.started id old hold).imp_right Nat.lt_succ_of_lt
  · rw [hg, HeapGraph.mem_targets_attach, hadds.targets] at hid
    rcases hid with ⟨-, rfl⟩ | hid
    · rw [HeapGraph.contains_iff, hobject, hadds.object?, if_pos rfl]
      exact ⟨_, rfl⟩
    · exact hcontains id (hs.targets y id hid)
  · rw [hg, HeapGraph.fieldTargets_attach, hadds.fieldTargets] at hid
    exact hcontains id (hs.fieldTargets a f id hid)

/-- Every parameter refers to an object of unknown origin, and adding more of
them changes nothing about that. -/
private theorem unknown_addParameters {parameters : List Variable} {s s' : HeapGraph × Allocator}
    (hok : parameters.foldlM addParameter s = .ok s') :
    (∀ x id, id ∈ s.1.targets x → s.1.isUnknown id = true →
        id ∈ s'.1.targets x ∧ s'.1.isUnknown id = true) ∧
      ∀ x ∈ parameters, ∃ id ∈ s'.1.targets x, s'.1.isUnknown id = true := by
  induction parameters generalizing s with
  | nil =>
      cases hok
      exact ⟨fun x id hid hunknown => ⟨hid, hunknown⟩, fun x hx => absurd hx List.not_mem_nil⟩
  | cons p rest ih =>
      rw [List.foldlM_cons] at hok
      obtain ⟨t, ht, hrest⟩ := bind_eq_ok.1 hok
      obtain ⟨-, -, g, hadds, hg⟩ := admits_addParameter ht
      obtain ⟨hkept, hnew⟩ := ih hrest
      refine ⟨fun x id hid hunknown => hkept x id ?_ ?_, fun x hx => ?_⟩
      · rw [hg, HeapGraph.mem_targets_attach, hadds.targets]
        exact .inr hid
      · obtain ⟨object, hobject, hkind⟩ := HeapGraph.isUnknown_iff.1 hunknown
        rw [hg, HeapGraph.isUnknown_iff]
        refine ⟨object, ?_, hkind⟩
        rw [HeapGraph.object?_attach]
        exact (opens_of_adds hadds).object? id object hobject
      · rcases List.mem_cons.1 hx with rfl | hx
        · refine ⟨s.2.next, hkept x _ ?_ ?_⟩
          · rw [hg, HeapGraph.mem_targets_attach]
            exact .inl ⟨rfl, rfl⟩
          · rw [hg, HeapGraph.isUnknown_iff, HeapGraph.object?_attach, hadds.object?, if_pos rfl]
            exact ⟨_, rfl, rfl⟩
        · exact hnew x hx

/-- What holds of the graph at the entry. -/
structure Starts (parameters : List Variable) (start : HeapGraph) (ids : Allocator) : Prop where
  begins : Begins start
  started : ∀ id object, start.object? id = some object → id = HeapId.null ∨ id < ids.next
  legal : ∀ m, Legal start m start
  parameters : ∀ x ∈ parameters, ∃ id ∈ start.targets x, start.isUnknown id = true

theorem starts_of_entry {parameters : List Variable} {ids ids' : Allocator}
    (hok : entry parameters ids = .ok (start, ids')) : Starts parameters start ids' := by
  have hentered : Entered (start, ids') :=
    foldlM_keeps (fun _ _ _ _ hs hok => entered_addParameter hs hok) (entered_ofFamily ids) hok
  refine ⟨hentered.begins, hentered.started, fun m => ⟨hentered.begins.null, ?_, hentered.targets,
    hentered.fieldTargets⟩, (unknown_addParameters hok).2⟩
  exact fun id object hobject => .inl hobject

/-- The table is in order before the first instruction. -/
theorem Starts.orderly {parameters : List Variable} {ids : Allocator}
    (hstarts : Starts parameters start ids)
    (hoffsets : ∀ i ∈ code, ∀ j ∈ code, i.offset = j.offset → i = j) :
    Orderly start code ⟨ids, .empty⟩ where
  begins := hstarts.begins
  offsets := hoffsets
  started := hstarts.started
  issued _ _ hget := nomatch hget
  distinct _ _ _ _ hget := nomatch hget
  suits _ _ hget := nomatch hget

/-! ## The analysis -/

variable {facts : List HeapGraph} {family : Nat}

private theorem join_spec (hstart : Begins start) (hg : Legal start m g)
    (hfacts : ∀ h ∈ facts, Legal start m h) (hok : facts.foldlM HeapGraph.union g = .ok g') :
    Legal start m g' ∧ g.Within g' ∧ ∀ h ∈ facts, h.Within g' := by
  induction facts generalizing g with
  | nil =>
      cases hok
      exact ⟨hg, .refl g', fun h hh => absurd hh List.not_mem_nil⟩
  | cons h rest ih =>
      rw [List.foldlM_cons] at hok
      obtain ⟨u, hu, hrest⟩ := bind_eq_ok.1 hok
      have hh := hfacts h List.mem_cons_self
      obtain ⟨hg', hwithin, hothers⟩ := ih (hg.union hstart hh hu)
        (fun k hk => hfacts k (List.mem_cons_of_mem h hk)) hrest
      have hkeyed := hh.keyed hstart
      refine ⟨hg', .trans ⟨fun x id hid => ?_, fun a f id hid => ?_⟩ hwithin, fun k hk => ?_⟩
      · exact (HeapGraph.mem_targets_union hu).2 (.inl hid)
      · exact (HeapGraph.mem_fieldTargets_union hkeyed hu).2 (.inl hid)
      · rcases List.mem_cons.1 hk with rfl | hk
        · exact .trans ⟨fun x id hid => (HeapGraph.mem_targets_union hu).2 (.inr hid),
            fun a f id hid => (HeapGraph.mem_fieldTargets_union hkeyed hu).2 (.inr hid)⟩ hwithin
        · exact hothers k hk

theorem legal_join (hstart : Begins start) (hfacts : ∀ h ∈ facts, Legal start m h)
    (hok : join family facts = .ok g) : Legal start m g := by
  cases facts with
  | nil =>
      cases hok
      exact .ofFamily hstart m family
  | cons first rest =>
      exact (join_spec hstart (hfacts first List.mem_cons_self)
        (fun h hh => hfacts h (List.mem_cons_of_mem first hh)) hok).1

/-- A join holds the edges of all facts. -/
theorem within_join (hstart : Begins start) (hfacts : ∀ h ∈ facts, Legal start m h)
    (hok : join family facts = .ok g) : ∀ h ∈ facts, h.Within g := by
  cases facts with
  | nil => exact fun h hh => absurd hh List.not_mem_nil
  | cons first rest =>
      obtain ⟨-, hfirst, hrest⟩ := join_spec hstart (hfacts first List.mem_cons_self)
        (fun h hh => hfacts h (List.mem_cons_of_mem first hh)) hok
      exact List.forall_mem_cons.2 ⟨hfirst, hrest⟩

/-- The analysis carries its table from one transfer to the next. -/
theorem carries {c : Cfg} {parameters : List Variable} {ids : Allocator}
    (hstart : Starts parameters start ids) (hcode : ∀ n, ∀ i ∈ c.codeOf n, i ∈ code) :
    (analysis c family start).Carries (Orderly start code) HeapSites.Extends
      (Legal start) where
  refl := .refl
  trans := .trans
  mono := .mono
  boundary _ := hstart.legal _
  initial _ := .ofFamily hstart.begins _ family
  join _ hfacts hok := legal_join hstart.begins hfacts hok
  transfer {m n g g' m'} hm hg hok := by
    have hend : InOrder start code (g', m') :=
      foldlM_keeps (fun i hi _ _ hs hstep => inOrder_apply hs (hcode n i hi) hstep)
        (⟨hm, hg⟩ : InOrder start code (g, m)) hok
    exact ⟨hend.table, replays_apply.foldlM.grows hok, hend.graph⟩
  replay hok hlast := replays_apply.foldlM.again hok hlast

end PointsTo

end MethodFlow
