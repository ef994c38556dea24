import MethodFlow.Proofs.Heap.Soundness

/-!
# What points-to facts promise

A solution of the points-to analysis is asked two things: which objects a
variable or a field may refer to, and whether two variables may refer to the
same object.

In a method without parameters, calls and static fields every object has been
made by one of its instructions, and the answers miss nothing.  With
parameters there are objects from outside, and an object that the method has
stored into one of them may come back as an object of unknown origin.  Two
variables that refer to the same object are still found to be possible
aliases, unless a store goes through a reference that came back in this way:
such a store is recorded for the objects of unknown origin alone.

## Main results

* `PointsTo.covers_closed_code`: without parameters, the facts know every
  object and every field.
* `PointsTo.mayAlias_of_same`: with parameters, variables that refer to the
  same object may be aliases, if no store goes through a loaded reference
  behind an escape.
* `PointsTo.mayAlias_misses_escaped`: behind such a store an alias is missed.
-/

namespace MethodFlow

/-- The id stands for the objects that the instruction at the offset makes. -/
def HeapGraph.IsSite (g : HeapGraph) (id : HeapId) (o : Offset) : Prop :=
  ∃ object, g.object? id = some object ∧ object.kind = .object ∧ object.offset = some o

namespace PointsTo

variable {start g : HeapGraph} {m : HeapSites} {code : List Instruction} {h h₀ : Memory}
  {x y : Variable} {id : HeapId} {object : HeapObject} {o : Offset} {c : Cfg}
  {method : Option MethodRef} {regions : List Region} {config limits : Config}
  {parameters : List Variable} {ids : Allocator} {s : Solution HeapSites HeapGraph} {n : NodeId}
  {path : List NodeId}

/-! ## Objects of instructions -/

theorem Legal.isSite (hm : Orderly start code m) (hg : Legal start m g) (hsite : Site m o object)
    (hid : g.contains object.id = true) : g.IsSite object.id o :=
  ⟨object, hg.object?_of_known hm hid (.inr ⟨o, hsite.1, rfl⟩), hsite.2,
    (hm.suits o object hsite.1).1⟩

theorem Legal.site_of_isSite (hm : Orderly start code m) (hg : Legal start m g)
    (hid : g.IsSite id o) :
    ∃ object, m.objects.get? o = some object ∧ object.id = id := by
  obtain ⟨object, hobject, hkind, hoffset⟩ := hid
  rcases hg.known id object hobject with hold | ⟨o', hget, hid⟩
  · by_cases hnull : id = HeapId.null
    · rw [hnull, hm.begins.null] at hold
      cases hold
      cases hkind
    · rw [(hm.begins.outside id object hold hnull).2.1] at hkind
      cases hkind
  · rw [(hm.suits o' object hget).1, Option.some.injEq] at hoffset
    exact ⟨object, hoffset ▸ hget, hid⟩

/-- An instruction has only one id. -/
theorem Legal.isSite_unique (hm : Orderly start code m) (hg : Legal start m g) {id' : HeapId}
    (hid : g.IsSite id o) (hid' : g.IsSite id' o) : id = id' := by
  obtain ⟨object, hget, rfl⟩ := hg.site_of_isSite hm hid
  obtain ⟨object', hget', rfl⟩ := hg.site_of_isSite hm hid'
  rw [Option.some.inj (hget.symm.trans hget')]

/-- **Closed code.**  Without parameters, calls and static fields, every
object that a variable refers to is one of the variable's objects in the fact,
every reference from field to object is an edge of it, and the objects of an
instruction have a single id there. -/
theorem covers_closed_code (hbuild : Cfg.build method code regions config = .ok c)
    (hinside : ∀ i ∈ code, i.op.staysInside = true) (hsolve : solve c [] limits ids = .ok s)
    (hpath : c.view.Path Cfg.entry n path)
    (hrun : Execution Memory.Acts (path.dropLast.flatMap c.codeOf) .empty h) :
    ∃ facts, s.input? n = some facts ∧
      (∀ x a o, h.values x = some a → h.origins a = some (.made o) →
        ∃ id ∈ facts.targets x, facts.IsSite id o) ∧
      (∀ a o f b o', h.origins a = some (.made o) → h.fields a f = some b →
        h.origins b = some (.made o') →
        ∃ id id', facts.IsSite id o ∧ facts.IsSite id' o' ∧ id' ∈ facts.fieldTargets id f) ∧
      ∀ id id' o, facts.IsSite id o → facts.IsSite id' o → id = id' := by
  have hnone : ¬ ∃ a, Memory.empty.origins a = some .outside := by
    rintro ⟨a, ha⟩
    cases ha
  obtain ⟨start, facts, hinput, hm, hg, htracks⟩ :=
    tracks_path hbuild hinside hsolve Memory.initial_empty hpath hrun fun h => absurd h hnone
  have hmade : ∀ {ids o}, Covers start s.memory
      ((∃ a, Memory.empty.origins a = some .outside) ∧
        Escaped (path.dropLast.flatMap (pointsAt c s))) ids (.made o) →
      ∃ object, Site s.memory o object ∧ object.id ∈ ids :=
    fun hcovers => hcovers.resolve_right fun hloose => hnone hloose.1.1
  refine ⟨facts, hinput, fun x a o ha ho => ?_, fun a o f b o' ha hb ho => ?_,
    fun id id' o => hg.isSite_unique hm⟩
  · obtain ⟨object, hsite, hid⟩ := hmade (htracks.sound.values x a _ ha ho)
    exact ⟨object.id, hid, hg.isSite hm hsite (hg.targets x _ hid)⟩
  · obtain ⟨object, hsite, hcovers⟩ := htracks.sound.made a o f b _ ha hb ho
    obtain ⟨object', hsite', hid⟩ := hmade hcovers
    refine ⟨object.id, object'.id, hg.isSite hm hsite ?_,
      hg.isSite hm hsite' (hg.fieldTargets _ _ _ hid), hid⟩
    by_contra hcontains
    rw [Bool.not_eq_true, HeapGraph.contains_eq_false_iff] at hcontains
    rw [HeapGraph.fieldTargets_of_none hcontains] at hid
    exact SortedSet.not_mem_empty _ hid

/-- A loop that makes two objects in every round, stores the one into the
other and loads it back. -/
def boxLoop : List Instruction :=
  [⟨0, .createObject ⟨"x", none, .local⟩ "Box" ⟨"Box", ".ctor", "()"⟩⟩,
    ⟨1, .createArray ⟨"y", none, .local⟩ "Item"⟩,
    ⟨2, .storeField ⟨"x", none, .local⟩ ⟨"Box", "item"⟩ ⟨"y", none, .local⟩⟩,
    ⟨3, .loadField ⟨"z", none, .local⟩ ⟨"x", none, .local⟩ ⟨"Box", "item"⟩⟩,
    ⟨4, .branch .conditional 0⟩, ⟨5, .return (some ⟨"z", none, .local⟩)⟩]

/-- The graph of the loop. -/
def boxLoopGraph : Cfg := ⟨none, (Cfg.Layout.of boxLoop []).graph .default⟩

/-- After two rounds `z` refers to the second array, which also stands in the
field of the second box, and the fact behind the loop knows both. -/
theorem covers_closed_code_boxLoop :
    ∃ s h, solve boxLoopGraph [] .default (.new 0) = .ok s ∧
      Execution Memory.Acts ([0, 2, 2].flatMap boxLoopGraph.codeOf) .empty h ∧
      h.values ⟨"z", none, .local⟩ = some 3 ∧ h.origins 3 = some (.made 1) ∧
      h.origins 2 = some (.made 0) ∧ h.fields 2 ⟨"Box", "item"⟩ = some 3 ∧
      ∃ facts, s.input? 3 = some facts ∧
        (∃ id ∈ facts.targets ⟨"z", none, .local⟩, facts.IsSite id 1) ∧
        ∃ id id', facts.IsSite id 0 ∧ facts.IsSite id' 1 ∧
          id' ∈ facts.fieldTargets id ⟨"Box", "item"⟩ := by
  have hbuild : Cfg.build none boxLoop [] .default = .ok boxLoopGraph :=
    Cfg.build_eq_ok_iff.2 ⟨by decide, rfl⟩
  have hpath : boxLoopGraph.view.Path Cfg.entry 3 [0, 2, 2, 3] :=
    .step (.step (.step .start (by decide)) (by decide)) (by decide)
  obtain ⟨s, hs⟩ : ∃ s, solve boxLoopGraph [] .default (.new 0) = .ok s :=
    exists_eq_ok (by decide +kernel)
  obtain ⟨h, hrun, hz, hy, hx, hfield⟩ : ∃ h,
      Execution Memory.Acts ([0, 2, 2].flatMap boxLoopGraph.codeOf) .empty h ∧
        h.values ⟨"z", none, .local⟩ = some 3 ∧ h.origins 3 = some (.made 1) ∧
        h.origins 2 = some (.made 0) ∧ h.fields 2 ⟨"Box", "item"⟩ = some 3 := by
    refine ⟨_, .cons ⟨0, rfl, rfl⟩ (.cons ⟨1, rfl, rfl⟩ (.cons ⟨0, rfl, rfl⟩
      (.cons ⟨0, rfl, rfl⟩ (.cons rfl (.cons ⟨2, rfl, rfl⟩ (.cons ⟨3, rfl, rfl⟩
      (.cons ⟨2, rfl, rfl⟩ (.cons ⟨2, rfl, rfl⟩ (.cons rfl .nil))))))))), ?_⟩
    decide
  obtain ⟨facts, hinput, hvalues, hfields, -⟩ :=
    covers_closed_code hbuild (by decide) hs hpath hrun
  exact ⟨s, h, hs, hrun, hz, hy, hx, hfield, facts, hinput, hvalues _ 3 1 hz hy,
    hfields 2 0 _ 3 1 hx hfield hy⟩

/-! ## Aliases -/

/-- An id that is not known to stand for null is something to refer to. -/
theorem Known.mem_referents (hknown : Known start m id object) (hm : Orderly start code m)
    (hkind : object.kind ≠ .null) (hid : id ∈ g.targets x) :
    id ∈ g.referents x :=
  HeapGraph.mem_referents.2 ⟨hid, hknown.ne_null hm hkind⟩

theorem Legal.unknown_referent (hm : Orderly start code m) (hg : Legal start m g)
    (hid : id ∈ g.targets x) (hunknown : Unknown start m id) :
    id ∈ g.referents x ∧ g.isUnknown id = true := by
  refine ⟨?_, hg.isUnknown hm (hg.targets x id hid) hunknown⟩
  obtain ⟨object, hknown, hkind⟩ := hunknown
  exact hknown.mem_referents hm (by rw [hkind]; exact nofun) hid

/-- Variables whose ids cover the same object may be aliases. -/
theorem Legal.mayAlias (hm : Orderly start code m) (hg : Legal start m g) {loose : Prop}
    {origin : Origin} (hx : Covers start m loose (g.targets x) origin)
    (hy : Covers start m loose (g.targets y) origin) : g.mayAlias x y = true := by
  cases origin with
  | outside =>
      obtain ⟨a, ha, hunknown⟩ := hx
      obtain ⟨b, hb, hunknown'⟩ := hy
      obtain ⟨ha, hflag⟩ := hg.unknown_referent hm ha hunknown
      exact HeapGraph.mayAlias_of_unknown ha
        (hg.unknown_referent hm hb hunknown').1 (.inl hflag)
  | made o =>
      have hreferent : ∀ {z object}, Site m o object → object.id ∈ g.targets z →
          object.id ∈ g.referents z := fun {z object} hsite hid =>
        Known.mem_referents (.inr ⟨o, hsite.1, rfl⟩) hm (by rw [hsite.2]; exact nofun) hid
      rcases hx with ⟨object, hsite, hid⟩ | ⟨-, a, ha, hloaded⟩ <;>
        rcases hy with ⟨object', hsite', hid'⟩ | ⟨-, b, hb, hloaded'⟩
      · -- Both know the object by the id of the instruction that has made it.
        rw [Option.some.inj (hsite'.1.symm.trans hsite.1)] at hid'
        exact HeapGraph.mayAlias_of_shared (hreferent hsite hid) (hreferent hsite hid')
      · obtain ⟨hb, hflag⟩ := hg.unknown_referent hm hb hloaded'.unknown
        exact HeapGraph.mayAlias_of_unknown (hreferent hsite hid) hb (.inr hflag)
      · obtain ⟨ha, hflag⟩ := hg.unknown_referent hm ha hloaded.unknown
        exact HeapGraph.mayAlias_of_unknown ha (hreferent hsite' hid') (.inl hflag)
      · obtain ⟨ha, hflag⟩ := hg.unknown_referent hm ha hloaded.unknown
        exact HeapGraph.mayAlias_of_unknown ha
          (hg.unknown_referent hm hb hloaded'.unknown).1 (.inl hflag)

/-- **Aliases are found.**  Whatever the parameters refer to, variables that
refer to the same object at the end of a path may be aliases in the fact
there, if no store of the path goes through a reference loaded from an object
of unknown origin once the method may have stored one of its own objects into
such an object. -/
theorem mayAlias_of_same (hbuild : Cfg.build method code regions config = .ok c)
    (hinside : ∀ i ∈ code, i.op.staysInside = true)
    (hsolve : solve c parameters limits ids = .ok s) (hinitial : h₀.Initial parameters)
    (hpath : c.view.Path Cfg.entry n path)
    (hrun : Execution Memory.Acts (path.dropLast.flatMap c.codeOf) h₀ h)
    (hconfines : Confines (path.dropLast.flatMap (pointsAt c s))) :
    ∃ facts, s.input? n = some facts ∧
      ∀ x y a, h.values x = some a → h.values y = some a → facts.mayAlias x y = true := by
  obtain ⟨start, facts, hinput, hm, hg, htracks⟩ :=
    tracks_path hbuild hinside hsolve hinitial hpath hrun fun _ => hconfines
  refine ⟨facts, hinput, fun x y a hx hy => ?_⟩
  obtain ⟨origin, ho⟩ := Option.ne_none_iff_exists'.1 (htracks.closed.values x a hx)
  exact hg.mayAlias hm (htracks.sound.values x a origin hx ho)
    (htracks.sound.values y a origin hy ho)

/-- Stores a new object into a box and loads the item of another one. -/
def itemSwap : List Instruction :=
  [⟨0, .createObject ⟨"x", none, .local⟩ "Item" ⟨"Item", ".ctor", "()"⟩⟩,
    ⟨1, .storeField ⟨"p", none, .parameter⟩ ⟨"Box", "item"⟩ ⟨"x", none, .local⟩⟩,
    ⟨2, .loadField ⟨"z", none, .local⟩ ⟨"q", none, .parameter⟩ ⟨"Box", "item"⟩⟩,
    ⟨3, .return none⟩]

/-- The two boxes. -/
def boxes : List Variable := [⟨"p", none, .parameter⟩, ⟨"q", none, .parameter⟩]

/-- The graph of the code. -/
def itemSwapGraph : Cfg := ⟨none, (Cfg.Layout.of itemSwap []).graph .default⟩

/-- A memory in which both boxes are the same object. -/
def sharedBox : Memory :=
  ⟨fun x => if x ∈ boxes then some 0 else none,
    fun a => if a = 0 then some .outside else none, fun _ _ => none⟩

theorem initial_sharedBox : sharedBox.Initial boxes where
  closed := by
    refine ⟨fun x a ha => ?_, fun _ _ _ _ hb => nomatch hb⟩
    simp only [sharedBox] at ha ⊢
    split at ha
    · cases ha
      exact nofun
    · cases ha
  outside a origin ha := by
    simp only [sharedBox] at ha
    split at ha
    · exact (Option.some.inj ha).symm
    · cases ha
  parameters x a ha := by
    simp only [sharedBox] at ha
    split at ha
    · next hx => exact hx
    · cases ha

/-- With one object for both boxes the new item comes back, and the two
variables that refer to it may be aliases. -/
theorem mayAlias_of_same_itemSwap :
    ∃ s h, solve itemSwapGraph boxes .default (.new 0) = .ok s ∧
      Execution Memory.Acts ([0, 2].flatMap itemSwapGraph.codeOf) sharedBox h ∧
      h.values ⟨"x", none, .local⟩ = some 1 ∧ h.values ⟨"z", none, .local⟩ = some 1 ∧
      Confines ([0, 2].flatMap (pointsAt itemSwapGraph s)) ∧
      ∃ facts, s.input? 1 = some facts ∧
        facts.mayAlias ⟨"x", none, .local⟩ ⟨"z", none, .local⟩ = true := by
  have hbuild : Cfg.build none itemSwap [] .default = .ok itemSwapGraph :=
    Cfg.build_eq_ok_iff.2 ⟨by decide, rfl⟩
  have hpath : itemSwapGraph.view.Path Cfg.entry 1 [0, 2, 1] :=
    .step (.step .start (by decide)) (by decide)
  obtain ⟨s, hs⟩ : ∃ s, solve itemSwapGraph boxes .default (.new 0) = .ok s :=
    exists_eq_ok (by decide +kernel)
  have hconfines : Confines ([0, 2].flatMap (pointsAt itemSwapGraph s)) := by
    have hresult : (solve itemSwapGraph boxes .default (.new 0)).toOption.all
        (fun s => decide (Confines ([0, 2].flatMap (pointsAt itemSwapGraph s)))) = true := by
      decide +kernel
    rw [hs] at hresult
    simpa [Except.toOption] using hresult
  obtain ⟨h, hrun, hx, hz⟩ : ∃ h,
      Execution Memory.Acts ([0, 2].flatMap itemSwapGraph.codeOf) sharedBox h ∧
        h.values ⟨"x", none, .local⟩ = some 1 ∧ h.values ⟨"z", none, .local⟩ = some 1 := by
    refine ⟨_, .cons ⟨1, rfl, rfl⟩ (.cons ⟨0, rfl, rfl⟩ (.cons ⟨0, rfl, rfl⟩ (.cons rfl .nil))), ?_⟩
    decide
  obtain ⟨facts, hinput, halias⟩ :=
    mayAlias_of_same hbuild (by decide) hs initial_sharedBox hpath hrun hconfines
  exact ⟨s, h, hs, hrun, hx, hz, hconfines, facts, hinput, halias _ _ 1 hx hz⟩

/-- Writes to the item that has come back, and reads the field through the
variable that has never lost it. -/
def itemWrite : List Instruction :=
  [⟨0, .createObject ⟨"x", none, .local⟩ "Item" ⟨"Item", ".ctor", "()"⟩⟩,
    ⟨1, .storeField ⟨"p", none, .parameter⟩ ⟨"Box", "item"⟩ ⟨"x", none, .local⟩⟩,
    ⟨2, .loadField ⟨"z", none, .local⟩ ⟨"q", none, .parameter⟩ ⟨"Box", "item"⟩⟩,
    ⟨3, .createObject ⟨"w", none, .local⟩ "Mark" ⟨"Mark", ".ctor", "()"⟩⟩,
    ⟨4, .storeField ⟨"z", none, .local⟩ ⟨"Item", "mark"⟩ ⟨"w", none, .local⟩⟩,
    ⟨5, .loadField ⟨"v", none, .local⟩ ⟨"x", none, .local⟩ ⟨"Item", "mark"⟩⟩,
    ⟨6, .return none⟩]

/-- The graph of the code. -/
def itemWriteGraph : Cfg := ⟨none, (Cfg.Layout.of itemWrite []).graph .default⟩

/-- **An alias is missed behind an escape.**  With one object for both boxes,
`v` and `w` refer to the same object, and the fact says that they cannot. -/
theorem mayAlias_misses_escaped :
    Cfg.build none itemWrite [] .default = .ok itemWriteGraph ∧
      (∀ i ∈ itemWrite, i.op.staysInside = true) ∧ sharedBox.Initial boxes ∧
      itemWriteGraph.view.Path Cfg.entry 1 [0, 2, 1] ∧
      ∃ s h, solve itemWriteGraph boxes .default (.new 0) = .ok s ∧
        Execution Memory.Acts ([0, 2, 1].dropLast.flatMap itemWriteGraph.codeOf) sharedBox h ∧
        h.values ⟨"v", none, .local⟩ = some 2 ∧ h.values ⟨"w", none, .local⟩ = some 2 ∧
        ∃ facts, s.input? 1 = some facts ∧
          facts.mayAlias ⟨"v", none, .local⟩ ⟨"w", none, .local⟩ = false := by
  refine ⟨Cfg.build_eq_ok_iff.2 ⟨by decide, rfl⟩, by decide, initial_sharedBox,
    .step (.step .start (by decide)) (by decide), ?_⟩
  have hresult : (solve itemWriteGraph boxes .default (.new 0)).toOption.any
      (fun s => (s.input? 1).any fun facts =>
        !facts.mayAlias ⟨"v", none, .local⟩ ⟨"w", none, .local⟩) = true := by
    decide +kernel
  obtain ⟨s, hs⟩ : ∃ s, solve itemWriteGraph boxes .default (.new 0) = .ok s :=
    exists_eq_ok (by decide +kernel)
  rw [hs] at hresult
  simp only [Except.toOption, Option.any_some, Option.any_eq_true, Bool.not_eq_true'] at hresult
  obtain ⟨facts, hinput, halias⟩ := hresult
  obtain ⟨h, hrun, hv, hw⟩ : ∃ h,
      Execution Memory.Acts ([0, 2, 1].dropLast.flatMap itemWriteGraph.codeOf) sharedBox h ∧
        h.values ⟨"v", none, .local⟩ = some 2 ∧ h.values ⟨"w", none, .local⟩ = some 2 := by
    refine ⟨_, .cons ⟨1, rfl, rfl⟩ (.cons ⟨0, rfl, rfl⟩ (.cons ⟨0, rfl, rfl⟩
      (.cons ⟨2, rfl, rfl⟩ (.cons ⟨1, rfl, rfl⟩ (.cons ⟨1, rfl, rfl⟩ (.cons rfl .nil)))))), ?_⟩
    decide
  exact ⟨s, h, hs, hrun, hv, hw, facts, hinput, halias⟩

end PointsTo

end MethodFlow
