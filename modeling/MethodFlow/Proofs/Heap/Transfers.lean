import MethodFlow.Heap.PointsTo
import MethodFlow.Proofs.Flow.Carried
import MethodFlow.Proofs.Heap.Graph
import MethodFlow.Proofs.Heap.Memory

/-!
# Transfers of the points-to analysis

The points-to analysis makes one object for each instruction that needs one,
when it first meets the instruction, and hands the table of these objects from
one transfer to the next.  The table only grows, and a transfer never needs
more than what it has put there, so it can be repeated under any later table.

What a transfer does to a graph is said through the three views of graphs: an
assignment rebinds one variable, a store adds edges of one field, and a load
may first have to open the field.

## Main results

* `PointsTo.apply_eq`: an instruction acts through its effect on references.
* `PointsTo.apply_eq_ok_iff`: what an instruction can do.
* `PointsTo.rebinds_assign`, `PointsTo.stores_store`, `PointsTo.loads_load`:
  the single steps.
* `PointsTo.replays_apply`: transfers can be repeated.
* `PointsTo.Keeps.apply`: what single steps keep, an instruction keeps.
-/

namespace MethodFlow

namespace HeapEffect

/-- The variable that an effect writes. -/
def dest? : HeapEffect → Option Variable
  | .create dest _ => some dest
  | .null dest => some dest
  | .copy dest _ => some dest
  | .load dest _ _ => some dest
  | .outside dest => dest
  | .clear dest => some dest
  | _ => .none

/-- The field that an effect looks at. -/
def field? : HeapEffect → Option FieldRef
  | .load _ _ field => some field
  | .store _ field _ => some field
  | _ => .none

/-- The kind of the object that an effect needs. -/
def siteKind? : HeapEffect → Option ObjectKind
  | .create _ _ => some .object
  | .load _ _ _ => some .unknown
  | .outside (some _) => some .unknown
  | _ => .none

end HeapEffect

/-! ## The table of objects -/

namespace HeapSites

variable {m m' m'' last : HeapSites} {object : HeapObject} {kind : ObjectKind}
  {type : Option TypeName} {o : Offset}

/-- The later table has all objects of the earlier one. -/
def Extends (m m' : HeapSites) : Prop :=
  ∀ o object, m.objects.get? o = some object → m'.objects.get? o = some object

theorem Extends.refl (m : HeapSites) : m.Extends m := fun _ _ h => h

theorem Extends.trans (h : m.Extends m') (h' : m'.Extends m'') : m.Extends m'' :=
  fun o object hget => h' o object (h o object hget)

/-- The object of an instruction is in the table, or it is put there under the
next id. -/
theorem site_cases (h : m.site o kind type = .ok (object, m')) :
    (m.objects.get? o = some object ∧ m' = m) ∨
      (m.objects.get? o = none ∧ object = ⟨m.ids.next, kind, type, some o⟩ ∧
        m'.ids.next = m.ids.next + 1 ∧ m'.objects = m.objects.insert o object) := by
  unfold site at h
  split at h
  · next old hold =>
    cases h
    exact .inl ⟨hold, rfl⟩
  · next hnone =>
    obtain ⟨⟨id, ids⟩, hallocate, h⟩ := bind_eq_ok.1 h
    cases h
    unfold Allocator.allocate at hallocate
    split at hallocate
    · cases hallocate
      exact .inr ⟨hnone, rfl, rfl, rfl⟩
    · cases hallocate

theorem get?_site (h : m.site o kind type = .ok (object, m')) :
    m'.objects.get? o = some object := by
  rcases site_cases h with ⟨hget, rfl⟩ | ⟨-, -, -, hobjects⟩
  · exact hget
  · rw [hobjects, SortedMap.get?_insert, if_pos rfl]

theorem extends_site (h : m.site o kind type = .ok (object, m')) : m.Extends m' := by
  rcases site_cases h with ⟨-, rfl⟩ | ⟨hnone, -, -, hobjects⟩
  · exact .refl m'
  · intro o' object' hget
    have hne : o' ≠ o := by
      rintro rfl
      rw [hnone] at hget
      cases hget
    rw [hobjects, SortedMap.get?_insert, if_neg hne]
    exact hget

/-- Once the object is there, asking for it changes nothing. -/
theorem site_again (hget : last.objects.get? o = some object) (kind : ObjectKind)
    (type : Option TypeName) : last.site o kind type = .ok (object, last) := by
  unfold site
  rw [hget]

end HeapSites

namespace PointsTo

variable {g g' h : HeapGraph} {m : HeapSites} {s s' : Step} {dest base : Variable} {f : FieldRef}
  {id : HeapId} {ids : List HeapId} {object : HeapObject} {kind : ObjectKind}
  {type : Option TypeName} {o : Offset} {i : Instruction}

/-- An instruction acts through its effect on references. -/
theorem apply_eq (s : Step) (i : Instruction) : apply s i =
    match i.op.heapEffect with
    | .create dest type => assignSite s dest i.offset .object (some type)
    | .null dest => do return (← assign s.1 dest [HeapId.null], s.2)
    | .copy dest source => do return (← assign s.1 dest (s.1.targets source).toList, s.2)
    | .load dest base field => load s i.offset dest base field
    | .store base field value => do return (← store s.1 base field value, s.2)
    | .outside (some dest) => assignSite s dest i.offset .unknown dest.type
    | .outside .none => .ok s
    | .clear dest => .ok (s.1.detach dest, s.2)
    | .none => .ok s := by
  obtain ⟨offset, op⟩ := i
  cases op with
  | basic dest => cases dest <;> rfl
  | call result method arguments dispatch => cases result <;> rfl
  | _ => rfl

/-! ## Assignments, stores and loads -/

/-- Only what `dest` refers to has changed. -/
structure Rebinds (g g' : HeapGraph) (dest : Variable) (P : HeapId → Prop) : Prop where
  object? : ∀ id, g'.object? id = g.object? id
  assigned : ∀ id, id ∈ g'.targets dest ↔ P id
  others : ∀ y ≠ dest, g'.targets y = g.targets y
  fieldTargets : ∀ id f, g'.fieldTargets id f = g.fieldTargets id f

theorem rebinds_detach (g : HeapGraph) (dest : Variable) :
    Rebinds g (g.detach dest) dest fun _ => False where
  object? _ := HeapGraph.object?_detach
  assigned id := by
    rw [HeapGraph.targets_detach, if_pos rfl]
    exact iff_false_intro (SortedSet.not_mem_empty id)
  others y hy := by rw [HeapGraph.targets_detach, if_neg hy]
  fieldTargets _ _ := HeapGraph.fieldTargets_detach

/-- An assignment leaves exactly the given objects. -/
theorem rebinds_assign (hok : assign g dest ids = .ok g') : Rebinds g g' dest (· ∈ ids) := by
  have hdetach := rebinds_detach g dest
  have hmem : ∀ id y, id ∈ g'.targets y ↔
      id ∈ (g.detach dest).targets y ∨ ∃ a ∈ ids, y = dest ∧ id = a := by
    intro id y
    refine foldlM_iff (Q := fun b : HeapGraph => id ∈ b.targets y) (fun a _ b b' hb => ?_) hok
    obtain ⟨-, rfl⟩ := HeapGraph.pointsTo_eq_ok_iff.1 hb
    rw [HeapGraph.mem_targets_attach, or_comm]
  obtain ⟨hobject, hfields⟩ : (∀ id, g'.object? id = (g.detach dest).object? id) ∧
      ∀ id f, g'.fieldTargets id f = (g.detach dest).fieldTargets id f := by
    refine foldlM_keeps (P := fun b : HeapGraph =>
      (∀ id, b.object? id = (g.detach dest).object? id) ∧
        ∀ id f, b.fieldTargets id f = (g.detach dest).fieldTargets id f)
      ?_ ⟨fun _ => rfl, fun _ _ => rfl⟩ hok
    rintro a - b b' ⟨hobject, hfields⟩ hb
    obtain ⟨-, rfl⟩ := HeapGraph.pointsTo_eq_ok_iff.1 hb
    exact ⟨fun id => HeapGraph.object?_attach.trans (hobject id),
      fun id f => HeapGraph.fieldTargets_attach.trans (hfields id f)⟩
  refine ⟨fun id => (hobject id).trans (hdetach.object? id), fun id => ?_, fun y hy => ?_,
    fun id f => (hfields id f).trans (hdetach.fieldTargets id f)⟩
  · rw [hmem, hdetach.assigned]
    simp
  · refine SortedSet.ext_mem fun id => ?_
    rw [hmem, hdetach.others y hy]
    simp [hy]

/-- A store adds edges from the objects of `base` to those of `value` and
nothing else. -/
structure Stores (g g' : HeapGraph) (base : Variable) (f : FieldRef) (value : Variable) :
    Prop where
  object? : ∀ id, g'.object? id = g.object? id
  targets : ∀ y, g'.targets y = g.targets y
  fieldTargets : ∀ a f' id, id ∈ g'.fieldTargets a f' ↔ id ∈ g.fieldTargets a f' ∨
    (a ∈ g.referents base ∧ f' = f ∧ id ∈ g.targets value)

private theorem stores_row {values : List HeapId} {a : HeapId}
    (hok : values.foldlM (fun g v => g.pointsToField a f v) g = .ok g') :
    (∀ id, g'.object? id = g.object? id) ∧ (∀ y, g'.targets y = g.targets y) ∧
      ∀ b f' id, id ∈ g'.fieldTargets b f' ↔
        id ∈ g.fieldTargets b f' ∨ ∃ v ∈ values, b = a ∧ f' = f ∧ id = v := by
  have hframe : (∀ id, g'.object? id = g.object? id) ∧ ∀ y, g'.targets y = g.targets y := by
    refine foldlM_keeps (P := fun b : HeapGraph => (∀ id, b.object? id = g.object? id) ∧
      ∀ y, b.targets y = g.targets y) ?_ ⟨fun _ => rfl, fun _ => rfl⟩ hok
    rintro v - b b' ⟨hobject, htargets⟩ hedge
    obtain ⟨-, -, rfl⟩ := HeapGraph.pointsToField_eq_ok_iff.1 hedge
    exact ⟨fun id => HeapGraph.object?_attachField.trans (hobject id), htargets⟩
  refine ⟨hframe.1, hframe.2, fun b f' id => ?_⟩
  refine foldlM_iff (Q := fun u : HeapGraph => id ∈ u.fieldTargets b f')
    (fun v _ w w' hedge => ?_) hok
  obtain ⟨hcontains, -, rfl⟩ := HeapGraph.pointsToField_eq_ok_iff.1 hedge
  rw [HeapGraph.mem_fieldTargets_attachField hcontains, or_comm]

theorem stores_store {value : Variable} (hok : store g base f value = .ok g') :
    Stores g g' base f value := by
  have hframe : (∀ id, g'.object? id = g.object? id) ∧ ∀ y, g'.targets y = g.targets y := by
    refine foldlM_keeps (P := fun b : HeapGraph => (∀ id, b.object? id = g.object? id) ∧
      ∀ y, b.targets y = g.targets y) ?_ ⟨fun _ => rfl, fun _ => rfl⟩ hok
    rintro a - b b' ⟨hobject, htargets⟩ hrow
    obtain ⟨hobject', htargets', -⟩ := stores_row hrow
    exact ⟨fun id => (hobject' id).trans (hobject id),
      fun y => (htargets' y).trans (htargets y)⟩
  refine ⟨hframe.1, hframe.2, fun a f' id => ?_⟩
  have hmem : id ∈ g'.fieldTargets a f' ↔ id ∈ g.fieldTargets a f' ∨
      ∃ b ∈ g.referents base, ∃ v ∈ (g.targets value).toList, a = b ∧ f' = f ∧ id = v := by
    refine foldlM_iff (Q := fun u : HeapGraph => id ∈ u.fieldTargets a f')
      (fun b _ u u' hrow => ?_) hok
    exact (stores_row hrow).2.2 a f' id
  rw [hmem]
  refine or_congr_right ?_
  constructor
  · rintro ⟨b, hb, v, hv, rfl, rfl, rfl⟩
    exact ⟨hb, rfl, hv⟩
  · rintro ⟨hb, rfl, hv⟩
    exact ⟨a, hb, id, hv, rfl, rfl, rfl⟩

/-- Objects and edges of fields have only been added. -/
structure Opens (g g' : HeapGraph) : Prop where
  object? : ∀ id object, g.object? id = some object → g'.object? id = some object
  targets : ∀ y, g'.targets y = g.targets y
  fieldTargets : ∀ a f id, id ∈ g.fieldTargets a f → id ∈ g'.fieldTargets a f

theorem Opens.refl (g : HeapGraph) : Opens g g :=
  ⟨fun _ _ h => h, fun _ => rfl, fun _ _ _ h => h⟩

theorem Opens.trans (hg : Opens g g') (hh : Opens g' h) : Opens g h :=
  ⟨fun id object hid => hh.object? id object (hg.object? id object hid),
    fun y => (hh.targets y).trans (hg.targets y),
    fun a f id hid => hh.fieldTargets a f id (hg.fieldTargets a f id hid)⟩

theorem Opens.contains (hopens : Opens g g') (hid : g.contains id = true) :
    g'.contains id = true := by
  obtain ⟨object, hobject⟩ := HeapGraph.contains_iff.1 hid
  exact HeapGraph.contains_iff.2 ⟨object, hopens.object? id object hobject⟩

theorem Opens.within (hopens : Opens g g') : g.Within g' where
  targets x id hid := by
    rw [hopens.targets]
    exact hid
  fieldTargets := hopens.fieldTargets

theorem opens_of_adds (hadds : g.Adds g' object) : Opens g g' where
  object? id old hold := by
    rw [hadds.object?]
    split
    · next hid =>
      rw [hid] at hold
      rcases hadds.fresh with hnone | hsame
      · rw [hnone] at hold
        cases hold
      · rw [hsame] at hold
        exact hold
    · exact hold
  targets := hadds.targets
  fieldTargets a f id hid := by
    rw [hadds.fieldTargets]
    exact hid

/-- Opening a field of an object of unknown origin makes it refer to the
object of the instruction. -/
theorem openField_cases (hok : openField o dest f s id = .ok s') :
    (s.1.isUnknown id = false ∧ s' = s) ∨
      (s.1.isUnknown id = true ∧ ∃ object g, s.2.site o .unknown dest.type = .ok (object, s'.2) ∧
        s.1.addObject object = .ok g ∧ g.pointsToField id f object.id = .ok s'.1) := by
  unfold openField at hok
  split at hok
  · next hunknown =>
    obtain ⟨⟨object, sites⟩, hsite, hok⟩ := bind_eq_ok.1 hok
    obtain ⟨g, hadd, hok⟩ := bind_eq_ok.1 hok
    obtain ⟨u, hedge, hok⟩ := bind_eq_ok.1 hok
    cases hok
    exact .inr ⟨hunknown, object, g, hsite, hadd, hedge⟩
  · next hknown =>
    cases hok
    exact .inl ⟨by simpa using hknown, rfl⟩

theorem opens_openField (hok : openField o dest f s id = .ok s') :
    Opens s.1 s'.1 ∧ (s.1.isUnknown id = true → ∃ object, s'.2.objects.get? o = some object ∧
      object.id ∈ s'.1.fieldTargets id f) := by
  rcases openField_cases hok with ⟨hknown, rfl⟩ | ⟨-, object, g, hsite, hadd, hedge⟩
  · exact ⟨.refl s'.1, fun hunknown => by rw [hknown] at hunknown; cases hunknown⟩
  · obtain ⟨hcontains, -, hlast⟩ := HeapGraph.pointsToField_eq_ok_iff.1 hedge
    rw [hlast]
    refine ⟨(opens_of_adds (HeapGraph.adds_of_addObject hadd)).trans ⟨?_, ?_, ?_⟩, fun _ => ?_⟩
    · intro id object hid
      rw [HeapGraph.object?_attachField]
      exact hid
    · exact fun _ => HeapGraph.targets_attachField
    · exact fun a f id hid => (HeapGraph.mem_fieldTargets_attachField hcontains).2 (.inr hid)
    · exact ⟨object, HeapSites.get?_site hsite,
        (HeapGraph.mem_fieldTargets_attachField hcontains).2 (.inl ⟨rfl, rfl, rfl⟩)⟩

/-! ## Repeated transfers -/

/-- A step only adds to the table, and it can be repeated under any later
table. -/
structure Replays {α : Type} (step : Step → α → Except Error Step) : Prop where
  grows : ∀ {s a s'}, step s a = .ok s' → s.2.Extends s'.2
  again : ∀ {s a s' last}, step s a = .ok s' → s'.2.Extends last →
    step (s.1, last) a = .ok (s'.1, last)

namespace Replays

variable {α : Type} {step : Step → α → Except Error Step}

private theorem extends_foldlM (hstep : Replays step) {l : List α}
    (hok : l.foldlM step s = .ok s') : s.2.Extends s'.2 :=
  foldlM_keeps (P := fun t : Step => s.2.Extends t.2)
    (fun _ _ _ _ ht hok => ht.trans (hstep.grows hok)) (.refl s.2) hok

theorem foldlM (hstep : Replays step) : Replays fun s (l : List α) => l.foldlM step s where
  grows hok := hstep.extends_foldlM hok
  again {s l s' last} hok hlast := by
    induction l generalizing s with
    | nil =>
        cases hok
        rfl
    | cons a rest ih =>
        rw [List.foldlM_cons] at hok ⊢
        obtain ⟨t, ht, hrest⟩ := bind_eq_ok.1 hok
        have hgrows := hstep.extends_foldlM hrest
        exact bind_eq_ok.2 ⟨(t.1, last), hstep.again ht (hgrows.trans hlast), ih hrest⟩

/-- A fold that ends with the table it began with never changes it. -/
theorem foldlM_cons_ok (hstep : Replays step) {a : α} {rest : List α}
    (hok : (a :: rest).foldlM step (g, m) = .ok (g', m)) :
    ∃ u, step (g, m) a = .ok (u, m) ∧ rest.foldlM step (u, m) = .ok (g', m) := by
  rw [List.foldlM_cons] at hok
  obtain ⟨t, ht, hrest⟩ := bind_eq_ok.1 hok
  have hagain := hstep.again ht (hstep.foldlM.grows hrest)
  have htable : t = (t.1, m) := Except.ok.inj (ht.symm.trans hagain)
  rw [htable] at hrest
  exact ⟨t.1, hagain, hrest⟩

end Replays

theorem replays_openField (o : Offset) (dest : Variable) (f : FieldRef) :
    Replays (openField o dest f) where
  grows {s id s'} hok := by
    rcases openField_cases hok with ⟨-, rfl⟩ | ⟨-, object, g, hsite, -, -⟩
    · exact .refl _
    · exact HeapSites.extends_site hsite
  again {s id s' last} hok hlast := by
    unfold openField
    rcases openField_cases hok with ⟨hknown, rfl⟩ | ⟨hunknown, object, g, hsite, hadd, hedge⟩
    · rw [if_neg (by simpa using hknown)]
      rfl
    · rw [if_pos hunknown]
      have hagain := HeapSites.site_again (hlast _ _ (HeapSites.get?_site hsite)) .unknown dest.type
      exact bind_eq_ok.2 ⟨_, hagain, bind_eq_ok.2 ⟨_, hadd, bind_eq_ok.2 ⟨_, hedge, rfl⟩⟩⟩

/-- The objects that a load looks at. -/
def bases (g : HeapGraph) (base : Variable) : List HeapId :=
  (g.targets base).toList.filter fun id => !isNullId g id

/-- The objects that a field of some objects may refer to. -/
def loaded (g : HeapGraph) (bases : List HeapId) (f : FieldRef) : List HeapId :=
  (SortedSet.ofList (bases.flatMap fun id => (g.fieldTargets id f).toList)).toList

theorem mem_bases {object : HeapObject} (hid : id ∈ g.targets base)
    (hobject : g.object? id = some object) (hkind : object.kind ≠ .null) : id ∈ bases g base := by
  obtain ⟨n, hn, rfl⟩ := Option.map_eq_some_iff.1 hobject
  refine List.mem_filter.2 ⟨hid, ?_⟩
  rw [isNullId, hn]
  simpa [HeapNode.isNull] using hkind

theorem exists_of_mem_bases (hid : id ∈ bases g base) :
    id ∈ g.targets base ∧ ∃ object, g.object? id = some object ∧ object.kind ≠ .null := by
  obtain ⟨htarget, hkind⟩ := List.mem_filter.1 hid
  refine ⟨htarget, ?_⟩
  rw [isNullId] at hkind
  cases hn : g.node? id with
  | none => simp [hn] at hkind
  | some n =>
      refine ⟨n.object, by rw [HeapGraph.object?, hn, Option.map_some], ?_⟩
      simpa [hn, HeapNode.isNull] using hkind

theorem mem_loaded : id ∈ loaded g ids f ↔ ∃ a ∈ ids, id ∈ g.fieldTargets a f := by
  simp [loaded]

private theorem opens_bases (hok : ids.foldlM (openField o dest f) s = .ok s') :
    Opens s.1 s'.1 ∧ ∀ id ∈ ids, s.1.isUnknown id = true →
      ∃ object, s'.2.objects.get? o = some object ∧ object.id ∈ s'.1.fieldTargets id f := by
  induction ids generalizing s with
  | nil =>
      cases hok
      exact ⟨.refl _, fun id hid => absurd hid List.not_mem_nil⟩
  | cons a rest ih =>
      rw [List.foldlM_cons] at hok
      obtain ⟨t, ht, hrest⟩ := bind_eq_ok.1 hok
      obtain ⟨hfirst, hunknown⟩ := opens_openField ht
      obtain ⟨hopens, hothers⟩ := ih hrest
      refine ⟨hfirst.trans hopens, fun id hid hid' => ?_⟩
      rcases List.mem_cons.1 hid with rfl | hid
      · obtain ⟨object, hget, hmem⟩ := hunknown hid'
        exact ⟨object, (replays_openField o dest f).foldlM.grows hrest o object hget,
          hopens.fieldTargets _ _ _ hmem⟩
      · obtain ⟨object, hobject, hkind⟩ := HeapGraph.isUnknown_iff.1 hid'
        exact hothers id hid
          (HeapGraph.isUnknown_iff.2 ⟨object, hfirst.object? id object hobject, hkind⟩)

/-- A load opens the field where it has to and then makes an assignment. -/
theorem load_eq_ok_iff : load s o dest base f = .ok s' ↔
    ∃ t, (bases s.1 base).foldlM (openField o dest f) s = .ok t ∧
      assign t.1 dest (loaded t.1 (bases s.1 base) f) = .ok s'.1 ∧ s'.2 = t.2 := by
  constructor
  · intro hok
    obtain ⟨t, hopen, hok⟩ := bind_eq_ok.1 hok
    obtain ⟨g, hassign, hok⟩ := bind_eq_ok.1 hok
    cases hok
    exact ⟨t, hopen, hassign, rfl⟩
  · rintro ⟨t, hopen, hassign, htable⟩
    refine bind_eq_ok.2 ⟨t, hopen, bind_eq_ok.2 ⟨s'.1, hassign, ?_⟩⟩
    rw [← htable]
    rfl

/-- A load finds all that the field may refer to, and the object of the
instruction if the field belongs to an object of unknown origin. -/
structure Loads (g g' : HeapGraph) (m : HeapSites) (o : Offset) (dest base : Variable)
    (f : FieldRef) : Prop where
  others : ∀ y ≠ dest, g'.targets y = g.targets y
  fieldTargets : ∀ a f' id, id ∈ g.fieldTargets a f' → id ∈ g'.fieldTargets a f'
  found : ∀ a ∈ bases g base, ∀ id ∈ g.fieldTargets a f, id ∈ g'.targets dest
  opened : ∀ a ∈ bases g base, g.isUnknown a = true →
    ∃ object, m.objects.get? o = some object ∧ object.id ∈ g'.targets dest

theorem loads_load (hok : load s o dest base f = .ok s') :
    Loads s.1 s'.1 s'.2 o dest base f := by
  obtain ⟨t, hopen, hassign, htable⟩ := load_eq_ok_iff.1 hok
  obtain ⟨hopens, hunknown⟩ := opens_bases hopen
  have hrebinds := rebinds_assign hassign
  refine ⟨fun y hy => (hrebinds.others y hy).trans (hopens.targets y), fun a f' id hid => ?_,
    fun a ha id hid => ?_, fun a ha ha' => ?_⟩
  · rw [hrebinds.fieldTargets]
    exact hopens.fieldTargets a f' id hid
  · exact (hrebinds.assigned id).2 (mem_loaded.2 ⟨a, ha, hopens.fieldTargets a f id hid⟩)
  · obtain ⟨object, hget, hmem⟩ := hunknown a ha ha'
    exact ⟨object, htable ▸ hget, (hrebinds.assigned _).2 (mem_loaded.2 ⟨a, ha, hmem⟩)⟩

theorem assignSite_eq_ok_iff : assignSite s dest o kind type = .ok s' ↔
    ∃ object g, s.2.site o kind type = .ok (object, s'.2) ∧ s.1.addObject object = .ok g ∧
      assign g dest [object.id] = .ok s'.1 := by
  constructor
  · intro hok
    obtain ⟨⟨object, sites⟩, hsite, hok⟩ := bind_eq_ok.1 hok
    obtain ⟨g, hadd, hok⟩ := bind_eq_ok.1 hok
    obtain ⟨u, hassign, hok⟩ := bind_eq_ok.1 hok
    cases hok
    exact ⟨object, g, hsite, hadd, hassign⟩
  · rintro ⟨object, g, hsite, hadd, hassign⟩
    exact bind_eq_ok.2 ⟨_, hsite, bind_eq_ok.2 ⟨_, hadd, bind_eq_ok.2 ⟨_, hassign, rfl⟩⟩⟩

/-- A step of the graph alone leaves the table as it is. -/
theorem graphStep_eq_ok_iff {r : Except Error HeapGraph} :
    (do return (← r, m) : Except Error Step) = .ok s' ↔ r = .ok s'.1 ∧ s'.2 = m := by
  constructor
  · intro hok
    obtain ⟨g, hg, hok⟩ := bind_eq_ok.1 hok
    cases hok
    exact ⟨hg, rfl⟩
  · rintro ⟨hg, htable⟩
    refine bind_eq_ok.2 ⟨s'.1, hg, ?_⟩
    rw [← htable]
    rfl

/-- What an instruction can do, by its effect on references. -/
theorem apply_eq_ok_iff : apply s i = .ok s' ↔
    match i.op.heapEffect with
    | .create dest type => assignSite s dest i.offset .object (some type) = .ok s'
    | .null dest => assign s.1 dest [HeapId.null] = .ok s'.1 ∧ s'.2 = s.2
    | .copy dest source => assign s.1 dest (s.1.targets source).toList = .ok s'.1 ∧ s'.2 = s.2
    | .load dest base field => load s i.offset dest base field = .ok s'
    | .store base field value => store s.1 base field value = .ok s'.1 ∧ s'.2 = s.2
    | .outside (some dest) => assignSite s dest i.offset .unknown dest.type = .ok s'
    | .outside .none => s' = s
    | .clear dest => s'.1 = s.1.detach dest ∧ s'.2 = s.2
    | .none => s' = s := by
  rw [apply_eq]
  generalize i.op.heapEffect = effect
  cases effect with
  | create dest type => exact Iff.rfl
  | null dest => exact graphStep_eq_ok_iff
  | copy dest source => exact graphStep_eq_ok_iff
  | load dest base field => exact Iff.rfl
  | store base field value => exact graphStep_eq_ok_iff
  | outside dest =>
      cases dest with
      | some dest => exact Iff.rfl
      | none => rw [Except.ok.injEq, eq_comm]
  | clear dest => rw [Except.ok.injEq, Prod.ext_iff, eq_comm, @eq_comm _ s.2]
  | none => rw [Except.ok.injEq, eq_comm]

theorem replays_assignSite (o : Offset) (kind : ObjectKind) (type : Option TypeName) :
    Replays fun s dest => assignSite s dest o kind type where
  grows hok := by
    obtain ⟨object, g, hsite, -, -⟩ := assignSite_eq_ok_iff.1 hok
    exact HeapSites.extends_site hsite
  again hok hlast := by
    obtain ⟨object, g, hsite, hrest⟩ := assignSite_eq_ok_iff.1 hok
    have hget := hlast _ _ (HeapSites.get?_site hsite)
    exact assignSite_eq_ok_iff.2 ⟨object, g, HeapSites.site_again hget kind type, hrest⟩

theorem replays_load (o : Offset) (dest : Variable) (f : FieldRef) :
    Replays fun s base => load s o dest base f where
  grows hok := by
    obtain ⟨t, hopen, -, htable⟩ := load_eq_ok_iff.1 hok
    rw [htable]
    exact (replays_openField o dest f).foldlM.grows hopen
  again hok hlast := by
    obtain ⟨t, hopen, hassign, htable⟩ := load_eq_ok_iff.1 hok
    rw [htable] at hlast
    exact load_eq_ok_iff.2
      ⟨(t.1, _), (replays_openField o dest f).foldlM.again hopen hlast, hassign, rfl⟩

/-- One instruction only adds to the table, and can be repeated. -/
theorem replays_apply : Replays apply where
  grows {s i s'} hok := by
    rw [apply_eq_ok_iff] at hok
    generalize i.op.heapEffect = effect at hok
    cases effect with
    | create dest type => exact (replays_assignSite _ _ _).grows hok
    | load dest base field => exact (replays_load _ _ _).grows hok
    | outside dest =>
        cases dest with
        | some dest => exact (replays_assignSite _ _ _).grows hok
        | none => exact hok ▸ .refl _
    | none => exact hok ▸ .refl _
    | null dest => exact hok.2 ▸ .refl _
    | copy dest source => exact hok.2 ▸ .refl _
    | store base field value => exact hok.2 ▸ .refl _
    | clear dest => exact hok.2 ▸ .refl _
  again {s i s' last} hok hlast := by
    rw [apply_eq_ok_iff] at hok ⊢
    generalize i.op.heapEffect = effect at hok ⊢
    cases effect with
    | create dest type => exact (replays_assignSite _ _ _).again hok hlast
    | load dest base field => exact (replays_load _ _ _).again hok hlast
    | outside dest =>
        cases dest with
        | some dest => exact (replays_assignSite _ _ _).again hok hlast
        | none => exact congrArg (fun t : Step => (t.1, last)) hok
    | none => exact congrArg (fun t : Step => (t.1, last)) hok
    | null dest => exact ⟨hok.1, rfl⟩
    | copy dest source => exact ⟨hok.1, rfl⟩
    | store base field value => exact ⟨hok.1, rfl⟩
    | clear dest => exact ⟨hok.1, rfl⟩

/-! ## Single steps -/

/-- What every single step of an instruction keeps: an instruction removes the
edges of the variable that it writes, adds edges of this variable or of the
field that it looks at, and adds the object of its own. -/
structure Keeps (P : Step → Prop) (i : Instruction) : Prop where
  detach : ∀ {g m x}, i.op.heapEffect.dest? = some x → P (g, m) → P (g.detach x, m)
  pointsTo : ∀ {g m x id g'}, i.op.heapEffect.dest? = some x → P (g, m) →
    g.pointsTo x id = .ok g' → P (g', m)
  pointsToField : ∀ {g m a f id g'}, i.op.heapEffect.field? = some f → P (g, m) →
    g.pointsToField a f id = .ok g' → P (g', m)
  site : ∀ {g m kind type object g' m'}, i.op.heapEffect.siteKind? = some kind → P (g, m) →
    m.site i.offset kind type = .ok (object, m') → g.addObject object = .ok g' → P (g', m')

namespace Keeps

variable {P : Step → Prop} {value : Variable}

theorem assign (h : Keeps P i) (hdest : i.op.heapEffect.dest? = some dest) (hs : P (g, m))
    (hok : assign g dest ids = .ok g') : P (g', m) :=
  foldlM_keeps (P := fun g => P (g, m)) (fun _ _ _ _ hb hpoints => h.pointsTo hdest hb hpoints)
    (h.detach hdest hs) hok

theorem assignSite (h : Keeps P i) (hdest : i.op.heapEffect.dest? = some dest)
    (hkind : i.op.heapEffect.siteKind? = some kind) (hs : P s)
    (hok : assignSite s dest i.offset kind type = .ok s') : P s' := by
  obtain ⟨object, g, hsite, hadd, hassign⟩ := assignSite_eq_ok_iff.1 hok
  have hput : P (g, s'.2) := h.site hkind hs hsite hadd
  exact h.assign hdest hput hassign

theorem openField (h : Keeps P i) (hfield : i.op.heapEffect.field? = some f)
    (hkind : i.op.heapEffect.siteKind? = some .unknown) (hs : P s)
    (hok : openField i.offset dest f s id = .ok s') : P s' := by
  rcases openField_cases hok with ⟨-, rfl⟩ | ⟨-, object, g, hsite, hadd, hedge⟩
  · exact hs
  · have hput : P (g, s'.2) := h.site hkind hs hsite hadd
    exact h.pointsToField hfield hput hedge

theorem openBases (h : Keeps P i) (hfield : i.op.heapEffect.field? = some f)
    (hkind : i.op.heapEffect.siteKind? = some .unknown) (hs : P s)
    (hok : ids.foldlM (PointsTo.openField i.offset dest f) s = .ok s') : P s' :=
  foldlM_keeps (fun _ _ _ _ ht hopen => h.openField hfield hkind ht hopen) hs hok

theorem load (h : Keeps P i) (hdest : i.op.heapEffect.dest? = some dest)
    (hfield : i.op.heapEffect.field? = some f)
    (hkind : i.op.heapEffect.siteKind? = some .unknown) (hs : P s)
    (hok : load s i.offset dest base f = .ok s') : P s' := by
  obtain ⟨t, hopen, hassign, htable⟩ := load_eq_ok_iff.1 hok
  have hopened : P (t.1, t.2) := h.openBases hfield hkind hs hopen
  rw [← htable] at hopened
  exact h.assign hdest hopened hassign

theorem store (h : Keeps P i) (hfield : i.op.heapEffect.field? = some f) (hs : P (g, m))
    (hok : store g base f value = .ok g') : P (g', m) :=
  foldlM_keeps (P := fun g => P (g, m)) (fun _ _ _ _ hb hrow =>
    foldlM_keeps (P := fun g => P (g, m)) (fun _ _ _ _ hb hedge =>
      h.pointsToField hfield hb hedge) hb hrow) hs hok

/-- What every single step keeps, the whole instruction keeps. -/
theorem apply (h : Keeps P i) (hs : P s) (hok : apply s i = .ok s') : P s' := by
  rw [apply_eq_ok_iff] at hok
  obtain ⟨g', m'⟩ := s'
  cases heffect : i.op.heapEffect with
  | create dest type =>
      rw [heffect] at hok
      exact h.assignSite (by rw [heffect]; rfl) (by rw [heffect]; rfl) hs hok
  | null dest =>
      rw [heffect] at hok
      obtain ⟨hassign, rfl⟩ := hok
      exact h.assign (by rw [heffect]; rfl) hs hassign
  | copy dest source =>
      rw [heffect] at hok
      obtain ⟨hassign, rfl⟩ := hok
      exact h.assign (by rw [heffect]; rfl) hs hassign
  | load dest base field =>
      rw [heffect] at hok
      exact h.load (by rw [heffect]; rfl) (by rw [heffect]; rfl) (by rw [heffect]; rfl) hs hok
  | store base field value =>
      rw [heffect] at hok
      obtain ⟨hstore, rfl⟩ := hok
      exact h.store (by rw [heffect]; rfl) hs hstore
  | outside dest =>
      cases dest with
      | some dest =>
          rw [heffect] at hok
          exact h.assignSite (by rw [heffect]; rfl) (by rw [heffect]; rfl) hs hok
      | none =>
          rw [heffect] at hok
          exact hok ▸ hs
  | clear dest =>
      rw [heffect] at hok
      obtain ⟨rfl, rfl⟩ := hok
      exact h.detach (by rw [heffect]; rfl) hs
  | none =>
      rw [heffect] at hok
      exact hok ▸ hs

end Keeps

end PointsTo

end MethodFlow
