import MethodFlow.Proofs.Heap.Integrity
import MethodFlow.Proofs.Heap.Sites

/-!
# Points-to graphs that show more

What a points-to graph shows comes in single atoms: there is a node, a variable
is known, there is an edge.  A graph lies below another one when everything it
shows the other one shows too.  A union shows what either graph shows, so it is
the least graph above both.

Every transfer of the points-to analysis is monotone in this order.  An
assignment takes edges away, but it takes all edges of its variable away
whatever they are, and what it puts there instead rises with the graph.  Two
transfers can only be compared under one table, though: under two tables the
object of an instruction might have two ids.

Graphs that lie below each other count as the same.  This needs both ends of
the edges, and that no node keeps a field without an edge.

## Main results

* `HeapGraph.shows_union`: what a union shows.
* `HeapGraph.sameEdges_of_below`: graphs that lie below each other count as
  the same.
* `PointsTo.Facing.apply`, `PointsTo.Facing.block`: transfers are monotone.
-/

namespace MethodFlow

/-- One thing that a points-to graph may show. -/
inductive HeapAtom where
  /-- There is a node. -/
  | node (id : HeapId)
  /-- A variable is known. -/
  | known (x : Variable)
  /-- A variable may refer to an object. -/
  | edge (x : Variable) (id : HeapId)
  /-- A field of an object may refer to an object. -/
  | field (a : HeapId) (f : FieldRef) (id : HeapId)
  deriving DecidableEq

namespace HeapGraph

variable {g g' h u : HeapGraph} {x y dest base value : Variable} {a b id t : HeapId}
  {f : FieldRef} {object : HeapObject} {atom : HeapAtom} {ids : List HeapId}

/-- Whether a graph shows something. -/
def Shows (g : HeapGraph) : HeapAtom → Prop
  | .node id => g.contains id = true
  | .known x => g.bindings.contains x = true
  | .edge x id => id ∈ g.targets x
  | .field a f id => id ∈ g.fieldTargets a f

instance (g : HeapGraph) : DecidablePred g.Shows
  | .node id => inferInstanceAs (Decidable (g.contains id = true))
  | .known x => inferInstanceAs (Decidable (g.bindings.contains x = true))
  | .edge x id => inferInstanceAs (Decidable (id ∈ g.targets x))
  | .field a f id => inferInstanceAs (Decidable (id ∈ g.fieldTargets a f))

/-- Everything that one graph shows, the other one shows too. -/
def Below (g h : HeapGraph) : Prop := ∀ atom, g.Shows atom → h.Shows atom

theorem Below.refl (g : HeapGraph) : g.Below g := fun _ hshows => hshows

theorem Below.trans (hgh : g.Below h) (hhu : h.Below u) : g.Below u :=
  fun atom hshows => hhu atom (hgh atom hshows)

/-! ## What changes show -/

theorem shows_ofFamily {family : Nat} :
    (ofFamily family).Shows atom ↔ atom = .node HeapId.null := by
  cases atom with
  | node id => simp [Shows, contains_iff, object?_ofFamily]
  | known x => simp [Shows, ofFamily, empty, SortedMap.contains]
  | edge x id => simp [Shows, ofFamily, empty, targets]
  | field a f id => simp [Shows, fieldTargets_ofFamily]

/-- The family plays no part. -/
theorem shows_bind (family : Option Nat) : { g with family }.Shows atom ↔ g.Shows atom := by
  cases atom <;> exact Iff.rfl

theorem shows_attach :
    (g.attach x a).Shows atom ↔ g.Shows atom ∨ atom = .known x ∨ atom = .edge x a := by
  cases atom with
  | node id => simp [Shows, contains_iff]
  | known y =>
      simp only [Shows, SortedMap.contains, attach, SortedMap.get?_insert]
      split
      · next hy => simp [hy]
      · next hy => simp [hy]
  | edge y id => simp [Shows, mem_targets_attach, or_comm]
  | field b f id => simp [Shows]

theorem shows_know : (g.know x).Shows atom ↔ g.Shows atom ∨ atom = .known x := by
  cases atom with
  | node id => simp [Shows, know, contains]
  | known y =>
      simp only [Shows, SortedMap.contains, know, SortedMap.get?_insert]
      split
      · next hy => simp [hy]
      · next hy => simp [hy]
  | edge y id =>
      simp only [Shows, know, targets_insert]
      split
      · next hy => simp [hy]
      · simp
  | field b f id => simp [Shows, know, fieldTargets, node?]

/-- A variable that is known stays known when its edges are removed. -/
theorem shows_detach : (g.detach x).Shows atom ↔ g.Shows atom ∧ ∀ id, atom ≠ .edge x id := by
  cases atom with
  | node id => simp [Shows, contains_iff]
  | known y =>
      simp only [Shows, SortedMap.contains, ne_eq, reduceCtorEq, not_false_eq_true, implies_true,
        and_true, detach]
      split
      · rfl
      · next ids hids =>
        rw [SortedMap.get?_insert]
        split
        · next hy => simp [hy, hids]
        · rfl
  | edge y id =>
      simp only [Shows, targets_detach]
      split
      · next hy => simp [hy]
      · next hy => simp [hy]
  | field b f id => simp [Shows]

theorem shows_attachField (ha : g.contains a = true) :
    (g.attachField a f t).Shows atom ↔ g.Shows atom ∨ atom = .field a f t := by
  cases atom with
  | node id => simp [Shows, contains_iff]
  | known y => simp [Shows, attachField]
  | edge y id => simp [Shows]
  | field b f' id => simp [Shows, mem_fieldTargets_attachField ha, or_comm]

theorem shows_addObject (hu : g.addObject object = .ok u) :
    u.Shows atom ↔ g.Shows atom ∨ atom = .node object.id := by
  have hadds := adds_of_addObject hu
  have hbindings : u.bindings = g.bindings := by
    unfold addObject at hu
    split at hu
    · split at hu
      · cases hu
        rfl
      · cases hu
    · cases hu
      rfl
  cases atom with
  | node id =>
      simp only [Shows, contains_iff, hadds.object?]
      split
      · next hid => simp [hid]
      · next hid => simp [hid]
  | known y => simp [Shows, hbindings]
  | edge y id => simp [Shows, hadds.targets]
  | field b f id => simp [Shows, hadds.fieldTargets]

theorem shows_pointsTo (hu : g.pointsTo x a = .ok u) :
    u.Shows atom ↔ g.Shows atom ∨ atom = .known x ∨ atom = .edge x a := by
  obtain ⟨-, rfl⟩ := pointsTo_eq_ok_iff.1 hu
  exact shows_attach

theorem shows_pointsToField (hu : g.pointsToField a f t = .ok u) :
    u.Shows atom ↔ g.Shows atom ∨ atom = .field a f t := by
  obtain ⟨ha, -, rfl⟩ := pointsToField_eq_ok_iff.1 hu
  exact shows_attachField ha

/-! ## Unions -/

/-- Everything a graph shows is written down somewhere in it. -/
private theorem shows_iff (hh : h.Keyed) : h.Shows atom ↔
    (∃ n ∈ h.nodes.values, atom = .node n.object.id) ∨
      (∃ e ∈ h.bindings.toList, atom = .known e.1 ∨ ∃ id ∈ e.2.toList, atom = .edge e.1 id) ∨
      ∃ n ∈ h.nodes.values, ∃ e ∈ n.targets.toList, ∃ t ∈ e.2.toList,
        atom = .field n.object.id e.1 t := by
  cases atom with
  | node id =>
      simp only [Shows, HeapAtom.node.injEq, reduceCtorEq, and_false, exists_false, or_false]
      constructor
      · intro hid
        obtain ⟨n, hn⟩ := exists_node? hid
        have hkey : n.object.id = id := hh id n.object (by rw [object?, hn, Option.map_some])
        exact ⟨n, hh.mem_values.2 (hkey ▸ hn), hkey.symm⟩
      · rintro ⟨n, hn, rfl⟩
        exact contains_of_node? (hh.mem_values.1 hn)
  | known x =>
      simp only [Shows, SortedMap.contains, Option.isSome_iff_exists, HeapAtom.known.injEq,
        reduceCtorEq, and_false, exists_false, or_false, false_or]
      constructor
      · rintro ⟨ids, hids⟩
        exact ⟨(x, ids), SortedMap.get?_eq_some_iff.1 hids, rfl⟩
      · rintro ⟨e, he, rfl⟩
        exact ⟨e.2, SortedMap.get?_eq_some_iff.2 he⟩
  | edge x id =>
      simp only [Shows, HeapAtom.edge.injEq, reduceCtorEq, and_false, exists_false, or_false,
        false_or, targets, SortedMap.mem_getD_get?]
      constructor
      · rintro ⟨ids, hentry, hid⟩
        exact ⟨(x, ids), hentry, id, hid, rfl, rfl⟩
      · rintro ⟨e, he, id, hid, rfl, rfl⟩
        exact ⟨e.2, he, hid⟩
  | field a f id =>
      simp only [Shows, HeapAtom.field.injEq, reduceCtorEq, and_false, exists_false, or_false,
        false_or, mem_fieldTargets, FieldEdges.atField, SortedMap.mem_getD_get?]
      constructor
      · rintro ⟨n, hn, ids, hentry, hid⟩
        have hkey : n.object.id = a := hh a n.object (by rw [object?, hn, Option.map_some])
        exact ⟨n, hh.mem_values.2 (hkey ▸ hn), (f, ids), hentry, id, hid, hkey.symm, rfl, rfl⟩
      · rintro ⟨n, hn, e, he, t, ht, rfl, rfl, rfl⟩
        exact ⟨n, hh.mem_values.1 hn, e.2, he, ht⟩

/-- **A union shows what either graph shows.** -/
theorem shows_union (hg : g.Intact) (hh : h.Intact) (hu : g.union h = .ok u) :
    u.Shows atom ↔ g.Shows atom ∨ h.Shows atom := by
  rw [← unionStepwise_eq hg hh, unionStepwise] at hu
  split at hu
  · cases hu
  obtain ⟨objects, hobjects, hu⟩ := bind_eq_ok.1 hu
  obtain ⟨held, hheld, hfields⟩ := bind_eq_ok.1 hu
  have hnodes : objects.Shows atom ↔ g.Shows atom ∨
      ∃ n ∈ h.nodes.values, atom = .node n.object.id := by
    rw [foldlM_iff (Q := fun b : HeapGraph => b.Shows atom)
      (fun n _ b b' hb => shows_addObject hb) hobjects, shows_bind]
  have hknown : held.Shows atom ↔ objects.Shows atom ∨ ∃ e ∈ h.bindings.toList,
      atom = .known e.1 ∨ ∃ id ∈ e.2.toList, atom = .edge e.1 id := by
    refine foldlM_iff (Q := fun b : HeapGraph => b.Shows atom) (fun e _ b b' hb => ?_) hheld
    have hrow := foldlM_iff (Q := fun b : HeapGraph => b.Shows atom)
      (fun id _ c c' hc => shows_pointsTo hc) hb
    rw [hrow, shows_know, or_assoc]
    refine or_congr_right ⟨?_, ?_⟩
    · rintro (hx | ⟨id, hid, hx | hx⟩)
      · exact .inl hx
      · exact .inl hx
      · exact .inr ⟨id, hid, hx⟩
    · rintro (hx | ⟨id, hid, hx⟩)
      · exact .inl hx
      · exact .inr ⟨id, hid, .inr hx⟩
  have hedges : u.Shows atom ↔ held.Shows atom ∨ ∃ n ∈ h.nodes.values, ∃ e ∈ n.targets.toList,
      ∃ t ∈ e.2.toList, atom = .field n.object.id e.1 t := by
    refine foldlM_iff (Q := fun b : HeapGraph => b.Shows atom) (fun n _ b b' hb => ?_) hfields
    refine foldlM_iff (Q := fun b : HeapGraph => b.Shows atom) (fun e _ c c' hc => ?_) hb
    exact foldlM_iff (Q := fun b : HeapGraph => b.Shows atom)
      (fun t _ d d' hd => shows_pointsToField hd) hc
  rw [hedges, hknown, hnodes, shows_iff hh.keyed]
  simp only [or_assoc]

/-! ## Graphs that count as the same -/

private theorem eq_of_atField {e e' : FieldEdges} (he : FieldEdges.Filled e)
    (he' : FieldEdges.Filled e')
    (hsame : ∀ f id, id ∈ FieldEdges.atField e f ↔ id ∈ FieldEdges.atField e' f) : e = e' := by
  refine SortedMap.ext_get? fun f => ?_
  have hset : FieldEdges.atField e f = FieldEdges.atField e' f := SortedSet.ext_mem (hsame f)
  unfold FieldEdges.atField at hset
  cases hget : e.get? f with
  | none =>
      cases hget' : e'.get? f with
      | none => rfl
      | some ids =>
          rw [hget, hget'] at hset
          exact absurd hset.symm (he' f ids hget')
  | some ids =>
      cases hget' : e'.get? f with
      | none =>
          rw [hget, hget'] at hset
          exact absurd hset (he f ids hget)
      | some ids' =>
          rw [hget, hget'] at hset
          exact congrArg some hset

private theorem bindings_eq (hgh : g.Below h) (hhg : h.Below g) : g.bindings = h.bindings := by
  refine SortedMap.ext_get? fun x => ?_
  have hset : g.targets x = h.targets x :=
    SortedSet.ext_mem fun id => ⟨hgh (.edge x id), hhg (.edge x id)⟩
  have hknown : g.bindings.contains x = true ↔ h.bindings.contains x = true :=
    ⟨hgh (.known x), hhg (.known x)⟩
  simp only [SortedMap.contains, targets] at hknown hset
  cases hget : g.bindings.get? x with
  | none =>
      cases hget' : h.bindings.get? x with
      | none => rfl
      | some ids => simp [hget, hget'] at hknown
  | some ids =>
      cases hget' : h.bindings.get? x with
      | none => simp [hget, hget'] at hknown
      | some ids' =>
          rw [hget, hget'] at hset
          exact congrArg some hset

/-- Nodes of one id in graphs that lie below each other have the same
edges. -/
private theorem node_sameEdges (hg : g.Intact) (hh : h.Intact) (hgh : g.Below h)
    (hhg : h.Below g) {n m : HeapNode} (hn : g.node? id = some n) (hm : h.node? id = some m) :
    n.sameEdges m = true := by
  obtain ⟨hsources, htargets⟩ := hg.filled id n hn
  obtain ⟨hsources', htargets'⟩ := hh.filled id m hm
  have hholders : n.holders = m.holders := by
    refine SortedSet.ext_mem fun x => ?_
    have hx : id ∈ g.targets x ↔ id ∈ h.targets x := ⟨hgh (.edge x id), hhg (.edge x id)⟩
    rw [hg.held, hh.held, mem_holders, mem_holders, hn, hm] at hx
    simpa using hx
  have htargeted : n.targets = m.targets := by
    refine eq_of_atField htargets htargets' fun f b => ?_
    have hb : b ∈ g.fieldTargets id f ↔ b ∈ h.fieldTargets id f :=
      ⟨hgh (.field id f b), hhg (.field id f b)⟩
    rw [mem_fieldTargets, mem_fieldTargets, hn, hm] at hb
    simpa using hb
  have hsourced : n.sources = m.sources := by
    refine eq_of_atField hsources hsources' fun f b => ?_
    have hb : id ∈ g.fieldTargets b f ↔ id ∈ h.fieldTargets b f :=
      ⟨hgh (.field b f id), hhg (.field b f id)⟩
    rw [hg.fields, hh.fields, mem_fieldSources, mem_fieldSources, hn, hm] at hb
    simpa using hb
  simp [HeapNode.sameEdges, hholders, htargeted, hsourced]

/-- Graphs that lie below each other count as the same. -/
theorem sameEdges_of_below (hg : g.Intact) (hh : h.Intact) (hgh : g.Below h) (hhg : h.Below g) :
    g.sameEdges h = true := by
  have hkeys : ∀ id, id ∈ g.nodes.keys ↔ id ∈ h.nodes.keys := by
    intro id
    have hid : g.contains id = true ↔ h.contains id = true := ⟨hgh (.node id), hhg (.node id)⟩
    simpa [contains, SortedMap.contains, Option.isSome_iff_exists, SortedMap.mem_keys_iff]
      using hid
  have hsize : g.nodes.size = h.nodes.size := by
    have hperm := (List.perm_ext_iff_of_nodup (nodup_keys g.nodes) (nodup_keys h.nodes)).2 hkeys
    simpa [SortedMap.keys, SortedMap.size] using hperm.length_eq
  simp only [sameEdges, Bool.and_eq_true, beq_iff_eq, List.all_eq_true]
  refine ⟨⟨bindings_eq hgh hhg, hsize⟩, fun e he => ?_⟩
  have hn : g.node? e.1 = some e.2 := SortedMap.get?_eq_some_iff.2 he
  obtain ⟨m, hm⟩ := exists_node? (hgh (.node e.1) (contains_of_node? hn))
  rw [hm]
  exact node_sameEdges hg hh hgh hhg hn hm

end HeapGraph

namespace PointsTo

variable {start g g' h h' t t' u : HeapGraph} {m : HeapSites} {dest base value : Variable}
  {f : FieldRef} {id : HeapId} {ids ids' : List HeapId} {object : HeapObject} {kind : ObjectKind}
  {type : Option TypeName} {o : Offset} {i : Instruction} {code piece : List Instruction}
  {atom : HeapAtom}

/-! ## What transfers show -/

theorem shows_assign (hok : assign g dest ids = .ok g') : g'.Shows atom ↔
    (g.Shows atom ∧ ∀ id, atom ≠ .edge dest id) ∨
      ∃ id ∈ ids, atom = .known dest ∨ atom = .edge dest id := by
  rw [foldlM_iff (Q := fun b : HeapGraph => b.Shows atom)
    (fun id _ b b' hb => HeapGraph.shows_pointsTo hb) hok, HeapGraph.shows_detach]

theorem shows_store (hok : store g base f value = .ok g') : g'.Shows atom ↔ g.Shows atom ∨
    ∃ a ∈ g.referents base, ∃ id ∈ (g.targets value).toList, atom = .field a f id := by
  refine foldlM_iff (Q := fun b : HeapGraph => b.Shows atom) (fun a _ b b' hb => ?_) hok
  exact foldlM_iff (Q := fun b : HeapGraph => b.Shows atom)
    (fun id _ c c' hc => HeapGraph.shows_pointsToField hc) hb

/-- Whether an object is of unknown origin is settled by the time there is a
node for it. -/
theorem Opens.isUnknown_iff (hopens : Opens g g') (hid : g.contains id = true) :
    g'.isUnknown id = true ↔ g.isUnknown id = true := by
  obtain ⟨object, hobject⟩ := HeapGraph.contains_iff.1 hid
  simp [HeapGraph.isUnknown_iff, hobject, hopens.object? id object hobject]

/-- A graph whose fields have been opened also shows the object of the
instruction, and that the field of every object of unknown origin refers to
it. -/
theorem shows_open (hids : ∀ a ∈ ids, g.contains a = true)
    (hok : ids.foldlM (openField o dest f) (g, m) = .ok (t, m)) : t.Shows atom ↔ g.Shows atom ∨
      ∃ a ∈ ids, g.isUnknown a = true ∧ ∃ object, m.objects.get? o = some object ∧
        (atom = .node object.id ∨ atom = .field a f object.id) := by
  induction ids generalizing g with
  | nil =>
      cases hok
      simp
  | cons a rest ih =>
      obtain ⟨u, hfirst, hrest⟩ := (replays_openField o dest f).foldlM_cons_ok hok
      obtain ⟨hopens, -⟩ := opens_openField hfirst
      have hrestIds : ∀ b ∈ rest, g.contains b = true :=
        fun b hb => hids b (List.mem_cons_of_mem a hb)
      rw [ih (fun b hb => hopens.contains (hrestIds b hb)) hrest, List.exists_mem_cons_iff,
        ← or_assoc]
      refine or_congr ?_ (exists_congr fun b => and_congr_right fun hb =>
        and_congr_left fun _ => hopens.isUnknown_iff (hrestIds b hb))
      rcases openField_cases hfirst with ⟨hmade, hsame⟩ | ⟨hunknown, object, k, hsite, hadd, hedge⟩
      · cases hsame
        simp [hmade]
      · have hget : m.objects.get? o = some object := HeapSites.get?_site hsite
        rw [HeapGraph.shows_pointsToField hedge, HeapGraph.shows_addObject hadd]
        simp [hunknown, hget, or_assoc]

/-! ## Transfers are monotone -/

/-- An assignment of more objects in a graph that shows more. -/
theorem below_assign (hle : g.Below h) (hids : ∀ id ∈ ids, id ∈ ids')
    (hok : assign g dest ids = .ok g') (hok' : assign h dest ids' = .ok h') : g'.Below h' := by
  intro atom hshows
  rw [shows_assign hok] at hshows
  rw [shows_assign hok']
  rcases hshows with ⟨hshows, hother⟩ | ⟨id, hid, hatom⟩
  · exact .inl ⟨hle atom hshows, hother⟩
  · exact .inr ⟨id, hids id hid, hatom⟩

/-- Two legal graphs under one table, the first one below the second. -/
structure Facing (start : HeapGraph) (code : List Instruction) (m : HeapSites)
    (g h : HeapGraph) : Prop where
  table : Orderly start code m
  lower : Legal start m g
  upper : Legal start m h
  below : g.Below h

namespace Facing

theorem object? (hf : Facing start code m g h) (hobject : g.object? id = some object) :
    h.object? id = some object := by
  have hcontains : h.contains id = true :=
    hf.below (.node id) (HeapGraph.contains_iff.2 ⟨object, hobject⟩)
  exact hf.upper.object?_of_known hf.table hcontains (hf.lower.known id object hobject)

theorem isUnknown (hf : Facing start code m g h) (hid : g.isUnknown id = true) :
    h.isUnknown id = true := by
  obtain ⟨object, hobject, hkind⟩ := HeapGraph.isUnknown_iff.1 hid
  exact HeapGraph.isUnknown_iff.2 ⟨object, hf.object? hobject, hkind⟩

theorem bases (hf : Facing start code m g h) (hid : id ∈ bases g base) : id ∈ bases h base := by
  obtain ⟨htarget, object, hobject, hkind⟩ := exists_of_mem_bases hid
  exact mem_bases (hf.below (.edge base id) htarget) (hf.object? hobject) hkind

theorem assignSite (hf : Facing start code m g h)
    (hok : assignSite (g, m) dest o kind type = .ok (g', m))
    (hok' : assignSite (h, m) dest o kind type = .ok (h', m)) : g'.Below h' := by
  obtain ⟨object, u, hsite, hadd, hassign⟩ := assignSite_eq_ok_iff.1 hok
  obtain ⟨object', u', hsite', hadd', hassign'⟩ := assignSite_eq_ok_iff.1 hok'
  -- Under one table it is the same object.
  have hsame : (object, m) = (object', m) := Except.ok.inj (hsite.symm.trans hsite')
  cases hsame
  refine below_assign (fun atom hshows => ?_) (fun id hid => hid) hassign hassign'
  rw [HeapGraph.shows_addObject hadd] at hshows
  rw [HeapGraph.shows_addObject hadd']
  exact hshows.imp_left (hf.below atom)

theorem load (hf : Facing start code m g h) (hok : load (g, m) o dest base f = .ok (g', m))
    (hok' : load (h, m) o dest base f = .ok (h', m)) : g'.Below h' := by
  obtain ⟨⟨t, _⟩, hopen, hassign, rfl⟩ := load_eq_ok_iff.1 hok
  obtain ⟨⟨t', _⟩, hopen', hassign', rfl⟩ := load_eq_ok_iff.1 hok'
  have hcontains : ∀ {k : HeapGraph} a, a ∈ PointsTo.bases k base → k.contains a = true := by
    intro k a ha
    obtain ⟨-, object, hobject, -⟩ := exists_of_mem_bases ha
    exact HeapGraph.contains_iff.2 ⟨object, hobject⟩
  have hopened : t.Below t' := by
    intro atom hshows
    rw [shows_open hcontains hopen] at hshows
    rw [shows_open hcontains hopen']
    rcases hshows with hshows | ⟨a, ha, hunknown, hatom⟩
    · exact .inl (hf.below atom hshows)
    · exact .inr ⟨a, hf.bases ha, hf.isUnknown hunknown, hatom⟩
  refine below_assign hopened (fun id hid => ?_) hassign hassign'
  obtain ⟨a, ha, htarget⟩ := mem_loaded.1 hid
  exact mem_loaded.2 ⟨a, hf.bases ha, hopened (.field a f id) htarget⟩

theorem store (hf : Facing start code m g h) (hok : store g base f value = .ok g')
    (hok' : store h base f value = .ok h') : g'.Below h' := by
  intro atom hshows
  rw [shows_store hok] at hshows
  rw [shows_store hok']
  rcases hshows with hshows | ⟨a, ha, id, hid, hatom⟩
  · exact .inl (hf.below atom hshows)
  · obtain ⟨htarget, hne⟩ := HeapGraph.mem_referents.1 ha
    exact .inr ⟨a, HeapGraph.mem_referents.2 ⟨hf.below (.edge base a) htarget, hne⟩, id,
      hf.below (.edge value id) hid, hatom⟩

/-- One instruction is monotone under one table. -/
theorem apply (hf : Facing start code m g h) (hi : i ∈ code)
    (hok : apply (g, m) i = .ok (g', m)) (hok' : apply (h, m) i = .ok (h', m)) :
    Facing start code m g' h' := by
  refine ⟨hf.table, (inOrder_apply ⟨hf.table, hf.lower⟩ hi hok).graph,
    (inOrder_apply ⟨hf.table, hf.upper⟩ hi hok').graph, ?_⟩
  rw [apply_eq_ok_iff] at hok hok'
  generalize i.op.heapEffect = effect at hok hok'
  cases effect with
  | create dest type => exact hf.assignSite hok hok'
  | null dest => exact below_assign hf.below (fun id hid => hid) hok.1 hok'.1
  | copy dest source =>
      exact below_assign hf.below (fun id hid => hf.below (.edge source id) hid) hok.1 hok'.1
  | load dest base field => exact hf.load hok hok'
  | store base field value => exact hf.store hok.1 hok'.1
  | outside dest =>
      cases dest with
      | some dest => exact hf.assignSite hok hok'
      | none =>
          cases hok
          cases hok'
          exact hf.below
  | clear dest =>
      obtain ⟨rfl, -⟩ := hok
      obtain ⟨rfl, -⟩ := hok'
      intro atom hshows
      rw [HeapGraph.shows_detach] at hshows ⊢
      exact ⟨hf.below atom hshows.1, hshows.2⟩
  | none =>
      cases hok
      cases hok'
      exact hf.below

/-- **A whole block is monotone** under one table. -/
theorem block (hf : Facing start code m g h) (hpiece : ∀ i ∈ piece, i ∈ code)
    (hok : piece.foldlM PointsTo.apply (g, m) = .ok (g', m))
    (hok' : piece.foldlM PointsTo.apply (h, m) = .ok (h', m)) : Facing start code m g' h' := by
  induction piece generalizing g h with
  | nil =>
      cases hok
      cases hok'
      exact hf
  | cons i rest ih =>
      obtain ⟨u, hfirst, hrest⟩ := replays_apply.foldlM_cons_ok hok
      obtain ⟨u', hfirst', hrest'⟩ := replays_apply.foldlM_cons_ok hok'
      exact ih (hf.apply (hpiece i List.mem_cons_self) hfirst hfirst')
        (fun j hj => hpiece j (List.mem_cons_of_mem i hj)) hrest hrest'

end Facing

end PointsTo

end MethodFlow
