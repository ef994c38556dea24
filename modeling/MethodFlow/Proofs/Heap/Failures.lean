import Mathlib.Data.Finset.Card
import MethodFlow.Proofs.Heap.Monotone

/-!
# What can fail in the points-to analysis

Changes of a points-to graph fail when an id has no node, when it already
stands for another object, or when graphs of two families meet.  The analysis
never lets that happen.  Whatever it attaches is in the graph, the object of
an instruction is the only one that is ever put under its id, and all graphs
are of the family of the allocator.  So a transfer can only fail because there
are no ids left, and that takes more instructions than there were ids.

Every instruction uses up at most one id (`made`), whichever way it is met.

## Main results

* `PointsTo.keeps_running`: what holds of tables and graphs throughout a run.
* `PointsTo.Running.fails_of_apply`: an instruction fails only for want of
  ids.
* `PointsTo.entry_spec`: the same for the parameters at the entry.
-/

namespace MethodFlow

/-- What the graphs of one method may mention. -/
structure HeapScope where
  family : Nat
  names : List Variable
  fields : List FieldRef

namespace HeapScope

/-- Whether something may be shown as far as variables and fields go. -/
def Allows (scope : HeapScope) : HeapAtom → Prop
  | .known x => x ∈ scope.names
  | .field _ f _ => f ∈ scope.fields
  | _ => True

/-- Whether an instruction keeps to the scope. -/
structure Covers (scope : HeapScope) (i : Instruction) : Prop where
  names : ∀ x, i.op.heapEffect.dest? = some x → x ∈ scope.names
  fields : ∀ f, i.op.heapEffect.field? = some f → f ∈ scope.fields

end HeapScope

namespace HeapGraph

variable {g g' h u : HeapGraph} {x : Variable} {a id t : HeapId} {f : FieldRef}
  {object : HeapObject} {scope : HeapScope}

/-! ## Graphs that keep to a scope -/

/-- A graph as the analysis makes them: it is intact, of the one family, and
mentions nothing outside the scope. -/
structure Framed (scope : HeapScope) (g : HeapGraph) : Prop where
  intact : g.Intact
  family : g.family = some scope.family
  allowed : ∀ atom, g.Shows atom → scope.Allows atom

/-- What may be added to a graph that keeps to a scope. -/
private theorem Framed.of_shows (hg : g.Framed scope) (hintact : g'.Intact)
    (hfamily : g'.family = g.family)
    (hshows : ∀ atom, g'.Shows atom → g.Shows atom ∨ scope.Allows atom) : g'.Framed scope :=
  ⟨hintact, hfamily.trans hg.family,
    fun atom hatom => (hshows atom hatom).elim (hg.allowed atom) id⟩

theorem family_detach : (g.detach x).family = g.family := by
  unfold detach
  split <;> rfl

theorem family_pointsTo (hu : g.pointsTo x id = .ok u) : u.family = g.family := by
  obtain ⟨-, rfl⟩ := pointsTo_eq_ok_iff.1 hu
  rfl

theorem family_pointsToField (hu : g.pointsToField a f t = .ok u) : u.family = g.family := by
  obtain ⟨-, -, rfl⟩ := pointsToField_eq_ok_iff.1 hu
  rfl

theorem family_addObject (hu : g.addObject object = .ok u) : u.family = g.family := by
  unfold addObject at hu
  split at hu
  · split at hu
    · cases hu
      rfl
    · cases hu
  · cases hu
    rfl

theorem contains_addObject (hu : g.addObject object = .ok u) : u.contains object.id = true := by
  rw [contains_iff, (adds_of_addObject hu).object?, if_pos rfl]
  exact ⟨object, rfl⟩

theorem family_union (hg : g.Intact) (hh : h.Intact) (hu : g.union h = .ok u) :
    u.family = g.family.or h.family := by
  rw [← unionStepwise_eq hg hh, unionStepwise] at hu
  split at hu
  · cases hu
  obtain ⟨objects, hobjects, hu⟩ := bind_eq_ok.1 hu
  obtain ⟨held, hheld, hfields⟩ := bind_eq_ok.1 hu
  have hnodes : objects.family = g.family.or h.family :=
    foldlM_keeps (fun _ _ _ _ hb hok => (family_addObject hok).trans hb) rfl hobjects
  have hknown : held.family = g.family.or h.family := by
    refine foldlM_keeps (P := fun b : HeapGraph => b.family = g.family.or h.family)
      (fun x _ b b' hb hrow => ?_) hnodes hheld
    exact foldlM_keeps (b := b.know x.1)
      (fun _ _ _ _ hb hok => (family_pointsTo hok).trans hb) hb hrow
  refine foldlM_keeps (P := fun b : HeapGraph => b.family = g.family.or h.family)
    (fun n _ b b' hb hnode => ?_) hknown hfields
  refine foldlM_keeps (P := fun b : HeapGraph => b.family = g.family.or h.family)
    (fun x _ b b' hb hrow => ?_) hb hnode
  exact foldlM_keeps (fun _ _ _ _ hb hok => (family_pointsToField hok).trans hb) hb hrow

namespace Framed

theorem detach (hg : g.Framed scope) (x : Variable) : (g.detach x).Framed scope :=
  hg.of_shows (hg.intact.detach x) family_detach fun _ hatom => .inl (shows_detach.1 hatom).1

theorem pointsTo (hg : g.Framed scope) (hx : x ∈ scope.names) (hu : g.pointsTo x id = .ok u) :
    u.Framed scope := by
  refine hg.of_shows ?_ (family_pointsTo hu) fun atom hatom => ?_
  · obtain ⟨hid, rfl⟩ := pointsTo_eq_ok_iff.1 hu
    exact hg.intact.attach hid
  · rcases (shows_pointsTo hu).1 hatom with hold | rfl | rfl
    · exact .inl hold
    · exact .inr hx
    · exact .inr trivial

theorem pointsToField (hg : g.Framed scope) (hf : f ∈ scope.fields)
    (hu : g.pointsToField a f t = .ok u) : u.Framed scope := by
  refine hg.of_shows ?_ (family_pointsToField hu) fun atom hatom => ?_
  · obtain ⟨ha, ht, rfl⟩ := pointsToField_eq_ok_iff.1 hu
    exact hg.intact.attachField ha ht
  · rcases (shows_pointsToField hu).1 hatom with hold | rfl
    · exact .inl hold
    · exact .inr hf

theorem addObject (hg : g.Framed scope) (hu : g.addObject object = .ok u) : u.Framed scope := by
  refine hg.of_shows (hg.intact.addObject hu) (family_addObject hu) fun atom hatom => ?_
  rcases (shows_addObject hu).1 hatom with hold | rfl
  · exact .inl hold
  · exact .inr trivial

theorem union (hg : g.Framed scope) (hh : h.Framed scope) (hu : g.union h = .ok u) :
    u.Framed scope := by
  refine hg.of_shows (hg.intact.union hh.intact hu) ?_ fun atom hatom => ?_
  · rw [family_union hg.intact hh.intact hu, hg.family]
    rfl
  · exact ((shows_union hg.intact hh.intact hu).1 hatom).imp_right (hh.allowed atom)

/-- Graphs of one family that agree on their objects can be united. -/
theorem union_ne_error (hg : g.Framed scope) (hh : h.Framed scope) (hagree : g.Agree h)
    {e : Error} : g.union h ≠ .error e := by
  have hclash : g.collision? h = none := by
    refine collision?_eq_none_iff.2 ⟨fun a b ha hb => ?_, hagree⟩
    rw [hg.family] at ha
    rw [hh.family] at hb
    exact (Option.some.inj ha).symm.trans (Option.some.inj hb)
  intro hunion
  rw [HeapGraph.union, hclash] at hunion
  cases hunion

end Framed

theorem framed_ofFamily (scope : HeapScope) : (ofFamily scope.family).Framed scope where
  intact := intact_ofFamily _
  family := rfl
  allowed atom hatom := by
    rw [shows_ofFamily.1 hatom]
    exact trivial

end HeapGraph

namespace PointsTo

variable {start g g' : HeapGraph} {m m' : HeapSites} {s s' : Step} {x dest base value : Variable}
  {f : FieldRef} {id : HeapId} {ids : List HeapId} {object : HeapObject} {kind : ObjectKind}
  {type : Option TypeName} {o : Offset} {i : Instruction} {code : List Instruction}
  {scope : HeapScope} {first : Nat} {e : Error}

/-! ## Ids in stock -/

/-- The offsets of the instructions that have an object. -/
def made (code : List Instruction) (m : HeapSites) : Finset Offset :=
  (code.map Instruction.offset).toFinset.filter fun o => m.objects.contains o = true

theorem mem_offsets (hi : i ∈ code) : i.offset ∈ (code.map Instruction.offset).toFinset :=
  List.mem_toFinset.2 (List.mem_map_of_mem hi)

theorem card_offsets_le : (code.map Instruction.offset).toFinset.card ≤ code.length :=
  (List.toFinset_card_le _).trans_eq (List.length_map _)

/-- As long as an instruction has no object, fewer objects than instructions
have been made. -/
theorem card_made_lt (hi : i ∈ code) (hnone : m.objects.get? i.offset = none) :
    (made code m).card < code.length := by
  refine Nat.lt_of_lt_of_le (Finset.card_lt_card (Finset.filter_ssubset.2 ?_)) card_offsets_le
  exact ⟨i.offset, mem_offsets hi, by simp [SortedMap.contains, hnone]⟩

theorem card_made_insert (hi : i ∈ code) (hnone : m.objects.get? i.offset = none)
    (hobjects : m'.objects = m.objects.insert i.offset object) :
    (made code m).card < (made code m').card := by
  have hget : ∀ o, m'.objects.contains o = true ↔ o = i.offset ∨ m.objects.contains o = true := by
    intro o
    rw [SortedMap.contains, hobjects, SortedMap.get?_insert]
    split
    · next ho => simp [ho]
    · next ho => simp [ho, SortedMap.contains]
  refine Finset.card_lt_card ((Finset.ssubset_iff_of_subset fun o ho => ?_).2 ⟨i.offset, ?_, ?_⟩)
  · obtain ⟨hmem, hcontains⟩ := Finset.mem_filter.1 ho
    exact Finset.mem_filter.2 ⟨hmem, (hget o).2 (.inr hcontains)⟩
  · exact Finset.mem_filter.2 ⟨mem_offsets hi, (hget _).2 (.inl rfl)⟩
  · intro ho
    have hcontains := (Finset.mem_filter.1 ho).2
    simp [SortedMap.contains, hnone] at hcontains

/-- The table is in order, and since `first` was the next id only the objects
in the table have been made. -/
structure Stocked (start : HeapGraph) (code : List Instruction) (first : Nat) (m : HeapSites) :
    Prop extends Orderly start code m where
  positive : 0 < m.ids.next
  counted : m.ids.next ≤ first + (made code m).card

/-- Ids that stand for something have been handed out. -/
theorem Stocked.lt_next (hm : Stocked start code first m) (hg : Legal start m g)
    (hid : g.contains id = true) : id < m.ids.next := by
  obtain ⟨object, hobject⟩ := HeapGraph.contains_iff.1 hid
  rcases hg.known id object hobject with hstart | ⟨o, hget, rfl⟩
  · rcases hm.started id object hstart with rfl | hlt
    · exact hm.positive
    · exact hlt
  · exact (hm.issued o object hget).2

theorem Stocked.next_le (hm : Stocked start code first m) :
    m.ids.next ≤ first + code.length :=
  hm.counted.trans (Nat.add_le_add_left
    ((Finset.card_le_card (Finset.filter_subset _ _)).trans card_offsets_le) first)

/-- What holds of the table and the graph throughout a run. -/
structure Running (start : HeapGraph) (code : List Instruction) (scope : HeapScope)
    (first : Nat) (s : Step) : Prop where
  table : Stocked start code first s.2
  graph : Legal start s.2 s.1
  framed : s.1.Framed scope

theorem Running.inOrder (hs : Running start code scope first s) : InOrder start code s :=
  ⟨hs.table.toOrderly, hs.graph⟩

theorem keeps_running (hi : i ∈ code) (hscope : scope.Covers i) :
    Keeps (Running start code scope first) i where
  detach hdest hs :=
    ⟨hs.table, ((keeps_inOrder hi).detach hdest hs.inOrder).graph, hs.framed.detach _⟩
  pointsTo hdest hs hok :=
    ⟨hs.table, hs.graph.pointsTo hok, hs.framed.pointsTo (hscope.names _ hdest) hok⟩
  pointsToField hfield hs hok :=
    ⟨hs.table, hs.graph.pointsToField hok, hs.framed.pointsToField (hscope.fields _ hfield) hok⟩
  site {g m kind type object g' m'} hkind hs hsite hadd := by
    have hput := inOrder_site hs.inOrder hi hkind hsite hadd
    refine ⟨⟨hput.table, ?_, ?_⟩, hput.graph, hs.framed.addObject hadd⟩
    · rcases HeapSites.site_cases hsite with ⟨-, rfl⟩ | ⟨-, -, hnext, -⟩
      · exact hs.table.positive
      · rw [hnext]
        exact Nat.succ_pos _
    · rcases HeapSites.site_cases hsite with ⟨-, rfl⟩ | ⟨hnone, -, hnext, hobjects⟩
      · exact hs.table.counted
      · have hmore := card_made_insert hi hnone hobjects
        show m'.ids.next ≤ _
        rw [hnext]
        exact (Nat.succ_le_succ hs.table.counted).trans (Nat.add_le_add_left hmore first)

/-! ## Steps that cannot fail -/

theorem assign_ne_error (hids : ∀ id ∈ ids, g.contains id = true) :
    assign g dest ids ≠ .error e := by
  refine foldlM_ne_error (P := fun b : HeapGraph => ∀ id ∈ ids, b.contains id = true) ?_ ?_ ?_
  · intro a _ b b' hb hok id hid
    obtain ⟨-, rfl⟩ := HeapGraph.pointsTo_eq_ok_iff.1 hok
    rw [HeapGraph.contains_iff, HeapGraph.object?_attach, ← HeapGraph.contains_iff]
    exact hb id hid
  · intro a ha b e hb
    rw [HeapGraph.pointsTo, if_pos (hb a ha)]
    rintro ⟨⟩
  · intro id hid
    rw [HeapGraph.contains_iff, HeapGraph.object?_detach, ← HeapGraph.contains_iff]
    exact hids id hid

theorem pointsToField_ne_error {a t : HeapId} (ha : g.contains a = true)
    (ht : g.contains t = true) : g.pointsToField a f t ≠ .error e := by
  rw [HeapGraph.pointsToField, if_pos ha, if_pos ht]
  rintro ⟨⟩

theorem store_ne_error (hg : Legal start m g) : store g base f value ≠ .error e := by
  have hkeep : ∀ (a v : HeapId) (b b' : HeapGraph),
      (∀ id, g.contains id = true → b.contains id = true) → b.pointsToField a f v = .ok b' →
        ∀ id, g.contains id = true → b'.contains id = true := by
    intro a v b b' hb hok id hid
    obtain ⟨-, -, rfl⟩ := HeapGraph.pointsToField_eq_ok_iff.1 hok
    rw [HeapGraph.contains_iff, HeapGraph.object?_attachField, ← HeapGraph.contains_iff]
    exact hb id hid
  refine foldlM_ne_error
    (P := fun b : HeapGraph => ∀ id, g.contains id = true → b.contains id = true)
    (fun a _ b b' hb hrow => foldlM_keeps (fun v _ => hkeep a v) hb hrow)
    (fun a ha b e hb => ?_) (fun _ hid => hid)
  refine foldlM_ne_error (fun v _ => hkeep a v) (fun v hv c e hc => ?_) hb
  have hbase := hg.targets base a (HeapGraph.mem_referents.1 ha).1
  exact pointsToField_ne_error (hc a hbase) (hc v (hg.targets value v hv))

/-- The object of an instruction can be put into every graph: its id is free,
or it stands for this object already. -/
theorem addObject_ne_error (hm : Stocked start code first m) (hg : Legal start m g)
    (hsite : m.site o kind type = .ok (object, m')) : g.addObject object ≠ .error e := by
  rw [HeapGraph.addObject]
  cases hn : g.node? object.id with
  | none => rintro ⟨⟩
  | some n =>
      have hold : g.object? object.id = some n.object := by
        rw [HeapGraph.object?, hn, Option.map_some]
      have hsame : n.object = object := by
        rcases HeapSites.site_cases hsite with ⟨hget, -⟩ | ⟨-, hobject, -, -⟩
        · exact hm.known_unique (hg.known _ _ hold) (.inr ⟨o, hget, rfl⟩)
        · have hlt := hm.lt_next hg (HeapGraph.contains_iff.2 ⟨_, hold⟩)
          rw [hobject] at hlt
          exact absurd hlt (Nat.lt_irrefl _)
      simp [hsame]

/-! ## Instructions that fail -/

/-- There were fewer ids left than there are instructions. -/
def Exhausts (first : Nat) (code : List Instruction) (e : Error) : Prop :=
  e = .heapIdsExhausted ∧ HeapId.max < first + code.length

theorem exhausts_of_site (hm : Stocked start code first m) (hi : i ∈ code)
    (herror : m.site i.offset kind type = .error e) : Exhausts first code e := by
  unfold HeapSites.site at herror
  split at herror
  · cases herror
  · next hnone =>
    rcases bind_eq_error.1 herror with hallocate | ⟨r, -, hmade⟩
    · unfold Allocator.allocate at hallocate
      split at hallocate
      · cases hallocate
      · next hfull =>
        cases hallocate
        have hfewer := card_made_lt hi hnone
        exact ⟨rfl, Nat.lt_of_le_of_lt ((Nat.le_of_not_lt hfull).trans hm.counted)
          (Nat.add_lt_add_left hfewer first)⟩
    · cases hmade

namespace Running

theorem fails_of_assignSite (hs : Running start code scope first s) (hi : i ∈ code)
    (herror : assignSite s dest i.offset kind type = .error e) : Exhausts first code e := by
  rcases bind_eq_error.1 herror with hsite | ⟨⟨object, m'⟩, hsite, herror⟩
  · exact exhausts_of_site hs.table hi hsite
  rcases bind_eq_error.1 herror with hadd | ⟨g, hadd, herror⟩
  · exact absurd hadd (addObject_ne_error hs.table hs.graph hsite)
  rcases bind_eq_error.1 herror with hassign | ⟨r, -, hdone⟩
  · refine absurd hassign (assign_ne_error fun id hid => ?_)
    rw [List.mem_singleton.1 hid]
    exact HeapGraph.contains_addObject hadd
  · cases hdone

theorem fails_of_openField (hs : Running start code scope first s) (hi : i ∈ code)
    (herror : openField i.offset dest f s id = .error e) : Exhausts first code e := by
  unfold openField at herror
  split at herror
  · next hunknown =>
    rcases bind_eq_error.1 herror with hsite | ⟨⟨object, m'⟩, hsite, herror⟩
    · exact exhausts_of_site hs.table hi hsite
    rcases bind_eq_error.1 herror with hadd | ⟨g, hadd, herror⟩
    · exact absurd hadd (addObject_ne_error hs.table hs.graph hsite)
    rcases bind_eq_error.1 herror with hedge | ⟨r, -, hdone⟩
    · obtain ⟨old, hold, -⟩ := HeapGraph.isUnknown_iff.1 hunknown
      have hbase : s.1.contains id = true := HeapGraph.contains_iff.2 ⟨old, hold⟩
      exact absurd hedge (pointsToField_ne_error
        ((opens_of_adds (HeapGraph.adds_of_addObject hadd)).contains hbase)
        (HeapGraph.contains_addObject hadd))
    · cases hdone
  · cases herror

theorem fails_of_load (hs : Running start code scope first s) (hi : i ∈ code)
    (hscope : scope.Covers i) (hfield : i.op.heapEffect.field? = some f)
    (hkind : i.op.heapEffect.siteKind? = some .unknown)
    (herror : load s i.offset dest base f = .error e) : Exhausts first code e := by
  have hkeeps : Keeps (Running start code scope first) i := keeps_running hi hscope
  rcases bind_eq_error.1 herror with hopen | ⟨t, hopen, herror⟩
  · exact foldlM_fails (fun _ _ _ _ ht hok => hkeeps.openField hfield hkind ht hok)
      (fun _ _ _ _ ht hfail => ht.fails_of_openField hi hfail) hs hopen
  rcases bind_eq_error.1 herror with hassign | ⟨r, -, hdone⟩
  · have ht : Running start code scope first t := hkeeps.openBases hfield hkind hs hopen
    refine absurd hassign (assign_ne_error fun id hid => ?_)
    obtain ⟨a, -, htarget⟩ := mem_loaded.1 hid
    exact ht.graph.fieldTargets a f id htarget
  · cases hdone

/-- A step of the graph alone fails as the change of the graph does. -/
private theorem graphStep_ne_error {r : Except Error HeapGraph} (hr : r ≠ .error e) :
    (do return (← r, m) : Except Error Step) ≠ .error e := by
  intro herror
  rcases bind_eq_error.1 herror with hfail | ⟨g, -, hdone⟩
  · exact hr hfail
  · cases hdone

/-- **An instruction fails only for want of ids.** -/
theorem fails_of_apply (hs : Running start code scope first s) (hi : i ∈ code)
    (hscope : scope.Covers i) (herror : apply s i = .error e) : Exhausts first code e := by
  rw [apply_eq] at herror
  cases heffect : i.op.heapEffect with
  | create dest type =>
      rw [heffect] at herror
      exact hs.fails_of_assignSite hi herror
  | null dest =>
      rw [heffect] at herror
      refine absurd herror (graphStep_ne_error (assign_ne_error fun id hid => ?_))
      rw [List.mem_singleton.1 hid]
      exact HeapGraph.contains_iff.2 ⟨_, hs.graph.null⟩
  | copy dest source =>
      rw [heffect] at herror
      exact absurd herror (graphStep_ne_error (assign_ne_error (hs.graph.targets source)))
  | load dest base field =>
      rw [heffect] at herror
      exact hs.fails_of_load hi hscope (by rw [heffect]; rfl) (by rw [heffect]; rfl) herror
  | store base field value =>
      rw [heffect] at herror
      exact absurd herror (graphStep_ne_error (store_ne_error hs.graph))
  | outside dest =>
      rw [heffect] at herror
      cases dest with
      | some dest => exact hs.fails_of_assignSite hi herror
      | none => cases herror
  | clear dest =>
      rw [heffect] at herror
      cases herror
  | none =>
      rw [heffect] at herror
      cases herror

end Running

/-! ## The entry -/

/-- What holds of the graph and the allocator while parameters are added. -/
structure Admitting (scope : HeapScope) (s : HeapGraph × Allocator) : Prop where
  entered : Entered s
  positive : 0 < s.2.next
  framed : s.1.Framed scope
  family : s.2.family = scope.family

theorem admitting_ofFamily {ids : Allocator} (hids : 0 < ids.next)
    (hfamily : scope.family = ids.family) : Admitting scope (.ofFamily ids.family, ids) where
  entered := entered_ofFamily ids
  positive := hids
  framed := by
    rw [← hfamily]
    exact HeapGraph.framed_ofFamily scope
  family := hfamily.symm

theorem Admitting.free {s : HeapGraph × Allocator} (hs : Admitting scope s) :
    s.1.object? s.2.next = none := by
  rw [Option.eq_none_iff_forall_ne_some]
  intro object hobject
  rcases hs.entered.started s.2.next object hobject with hnull | hlt
  · exact absurd hnull (Nat.pos_iff_ne_zero.1 hs.positive)
  · exact Nat.lt_irrefl _ hlt

/-- A parameter is added under the next id, if there is one. -/
theorem addParameter_eq {s : HeapGraph × Allocator} (hs : Admitting scope s)
    (hnext : s.2.next < HeapId.max) : addParameter s x =
      .ok ((s.1.place ⟨s.2.next, .unknown, x.type, none⟩).attach x s.2.next,
        { s.2 with next := s.2.next + 1 }) := by
  obtain ⟨g, ids⟩ := s
  have hbind : g.bind? ids.family = some g := by
    rw [HeapGraph.bind?, hs.framed.family, hs.family]
    simp
  have hcreate : g.create ids .unknown x.type none =
      ⟨{ ids with next := ids.next + 1 }, g.place ⟨ids.next, .unknown, x.type, none⟩,
        .ok ids.next⟩ := by
    have hcontains : g.contains ids.next = false := HeapGraph.contains_eq_false_iff.2 hs.free
    simp [HeapGraph.create, Allocator.allocate, if_pos hnext, hbind, hcontains]
  have hplaced : (g.place ⟨ids.next, .unknown, x.type, none⟩).contains ids.next = true := by
    rw [HeapGraph.contains_iff, HeapGraph.object?_place, if_pos rfl]
    exact ⟨_, rfl⟩
  unfold addParameter
  rw [hcreate]
  show ((g.place _).pointsTo x ids.next).bind _ = _
  rw [HeapGraph.pointsTo, if_pos hplaced]
  rfl

theorem addParameter_full {s : HeapGraph × Allocator} (hfull : ¬ s.2.next < HeapId.max) :
    addParameter s x = .error .heapIdsExhausted := by
  rw [addParameter, HeapGraph.create, Allocator.allocate, if_neg hfull]
  rfl

theorem Admitting.addParameter {s s' : HeapGraph × Allocator} (hs : Admitting scope s)
    (hx : x ∈ scope.names) (hnext : s.2.next < HeapId.max) (hok : addParameter s x = .ok s') :
    Admitting scope s' ∧ s'.2.next = s.2.next + 1 := by
  have hentered := entered_addParameter hs.entered hok
  rw [addParameter_eq hs hnext] at hok
  cases hok
  refine ⟨⟨hentered, Nat.succ_pos _, ?_, hs.family⟩, rfl⟩
  have hnone : s.1.node? s.2.next = none := Option.map_eq_none_iff.1 hs.free
  have hadd : s.1.addObject ⟨s.2.next, .unknown, x.type, none⟩ =
      .ok (s.1.place ⟨s.2.next, .unknown, x.type, none⟩) := by
    simp [HeapGraph.addObject, hnone]
  exact (hs.framed.addObject hadd).pointsTo hx
    (HeapGraph.pointsTo_eq_ok_iff.2 ⟨HeapGraph.contains_addObject hadd, rfl⟩)

/-- **The entry.**  All parameters are added, or there were too few ids for
them. -/
theorem entry_spec {parameters : List Variable} {s : HeapGraph × Allocator}
    (hs : Admitting scope s) (hnames : ∀ x ∈ parameters, x ∈ scope.names) :
    (∃ s', parameters.foldlM PointsTo.addParameter s = .ok s' ∧ Admitting scope s' ∧
        s'.2.next = s.2.next + parameters.length) ∨
      (parameters.foldlM PointsTo.addParameter s = .error .heapIdsExhausted ∧
        HeapId.max < s.2.next + parameters.length) := by
  induction parameters generalizing s with
  | nil => exact .inl ⟨s, rfl, hs, rfl⟩
  | cons x rest ih =>
      rw [List.foldlM_cons]
      by_cases hnext : s.2.next < HeapId.max
      · have hok := addParameter_eq (x := x) hs hnext
        obtain ⟨hs', hcount⟩ := hs.addParameter (hnames x List.mem_cons_self) hnext hok
        have hrest := ih hs' fun y hy => hnames y (List.mem_cons_of_mem x hy)
        rw [hcount, Nat.add_assoc, Nat.add_comm 1] at hrest
        rw [hok]
        exact hrest
      · refine .inr ⟨by rw [addParameter_full hnext]; rfl, ?_⟩
        exact Nat.lt_of_le_of_lt (Nat.le_of_not_lt hnext)
          (Nat.lt_add_of_pos_right (Nat.succ_pos _))

end PointsTo

end MethodFlow
