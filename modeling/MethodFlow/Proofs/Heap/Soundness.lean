import MethodFlow.Proofs.Cfg.Handlers
import MethodFlow.Proofs.Heap.Sites

/-!
# Points-to facts cover the memory

An id of a points-to graph stands for objects in memory: the id of an
instruction for the objects that the instruction has made, an id of unknown
origin for objects that come from outside.  A graph covers a memory when every
reference in a variable, and every reference in a field of an object that the
method has made, leads to an object that one of the ids in the graph stands
for.  Fields of objects from outside need no edges: loading one always gives
an id of unknown origin.

That is all as long as objects from outside refer to nothing but objects from
outside.  The method may break this by storing an object that it has made into
one of them: the object has escaped.  From then on it may come back from any
load as an object of unknown origin (`Covers` is loose), and a store through
such a reference changes a field of the object without a trace at the id of
the instruction that has made it.

## Main results

* `PointsTo.Sound.step`: an instruction keeps the memory covered, unless it
  stores through a loaded reference behind an escape.
* `PointsTo.tracks_path`: along every path the facts of a solution cover the
  memory, under the same condition.
-/

namespace MethodFlow

/-! ## Escapes -/

namespace HeapGraph

/-- Whether an id stands for the objects that an instruction makes. -/
def isMade (g : HeapGraph) (id : HeapId) : Bool :=
  (g.object? id).any fun object => object.kind == .object

/-- Whether an id stands for objects of unknown origin that an instruction
has brought in. -/
def isLoaded (g : HeapGraph) (id : HeapId) : Bool :=
  (g.object? id).any fun object => object.kind == .unknown && object.offset.isSome

/-- Whether an instruction may store an object that the method has made into
an object of unknown origin. -/
def letsEscape (g : HeapGraph) (i : Instruction) : Bool :=
  match i.op.heapEffect with
  | .store base _ value =>
    (g.targets base).toList.any g.isUnknown && (g.targets value).toList.any g.isMade
  | _ => false

/-- Whether an instruction stores through a reference that may have been
loaded from an object of unknown origin. -/
def storesThroughLoaded (g : HeapGraph) (i : Instruction) : Bool :=
  match i.op.heapEffect with
  | .store base _ _ => (g.targets base).toList.any g.isLoaded
  | _ => false

end HeapGraph

namespace PointsTo

variable {start g g' : HeapGraph} {m : HeapSites} {code piece : List Instruction}
  {i : Instruction} {loose loose' outsiders : Prop} {h h' : Memory} {x y dest base : Variable}
  {f : FieldRef} {id : HeapId} {object : HeapObject} {o : Offset} {origin : Origin}

/-! ## Covered memory -/

/-- The object of an instruction that makes objects. -/
def Site (m : HeapSites) (o : Offset) (object : HeapObject) : Prop :=
  m.objects.get? o = some object ∧ object.kind = .object

/-- An id of unknown origin. -/
def Unknown (start : HeapGraph) (m : HeapSites) (id : HeapId) : Prop :=
  ∃ object, Known start m id object ∧ object.kind = .unknown

/-- An id of unknown origin that belongs to an instruction. -/
def Loaded (m : HeapSites) (id : HeapId) : Prop :=
  ∃ o object, m.objects.get? o = some object ∧ object.id = id ∧ object.kind = .unknown

/-- One of the ids stands for an object of the given origin.  When objects
may have escaped, a loaded id stands for all of them. -/
def Covers (start : HeapGraph) (m : HeapSites) (loose : Prop) (ids : SortedSet HeapId) :
    Origin → Prop
  | .outside => ∃ id ∈ ids, Unknown start m id
  | .made o => (∃ object, Site m o object ∧ object.id ∈ ids) ∨ (loose ∧ ∃ id ∈ ids, Loaded m id)

/-- The references of the variables and of the objects that the method has
made are covered, and objects from outside keep to themselves unless some
object has escaped. -/
structure Sound (start : HeapGraph) (m : HeapSites) (loose : Prop) (g : HeapGraph) (h : Memory) :
    Prop where
  values : ∀ x a origin, h.values x = some a → h.origins a = some origin →
    Covers start m loose (g.targets x) origin
  made : ∀ a o f b origin, h.origins a = some (.made o) → h.fields a f = some b →
    h.origins b = some origin →
    ∃ object, Site m o object ∧ Covers start m loose (g.fieldTargets object.id f) origin
  confined : ¬ loose → ∀ a f b, h.origins a = some .outside → h.fields a f = some b →
    h.origins b = some .outside

theorem Loaded.unknown (hid : Loaded m id) : Unknown start m id := by
  obtain ⟨o, object, hget, rfl, hkind⟩ := hid
  exact ⟨object, .inr ⟨o, hget, rfl⟩, hkind⟩

theorem Covers.mono {ids ids' : SortedSet HeapId} (hids : ∀ id, id ∈ ids → id ∈ ids')
    (hloose : loose → loose') (hcovers : Covers start m loose ids origin) :
    Covers start m loose' ids' origin := by
  cases origin with
  | outside =>
      obtain ⟨id, hid, hunknown⟩ := hcovers
      exact ⟨id, hids id hid, hunknown⟩
  | made o =>
      rcases hcovers with ⟨object, hsite, hid⟩ | ⟨h, id, hid, hloaded⟩
      · exact .inl ⟨object, hsite, hids _ hid⟩
      · exact .inr ⟨hloose h, id, hids id hid, hloaded⟩

theorem Sound.mono (hs : Sound start m loose g h) (hwithin : g.Within g')
    (hloose : loose → loose') : Sound start m loose' g' h where
  values x a origin ha ho := (hs.values x a origin ha ho).mono (hwithin.targets x) hloose
  made a o f b origin ha hb ho := by
    obtain ⟨object, hsite, hcovers⟩ := hs.made a o f b origin ha hb ho
    exact ⟨object, hsite, hcovers.mono (hwithin.fieldTargets _ _) hloose⟩
  confined hnot := hs.confined fun h => hnot (hloose h)

/-- Writing a variable keeps the memory covered if the new value is. -/
theorem Sound.assign (hs : Sound start m loose g h)
    (hothers : ∀ y ≠ dest, g'.targets y = g.targets y)
    (hfields : ∀ a f id, id ∈ g.fieldTargets a f → id ∈ g'.fieldTargets a f)
    {value : Option Address} (hvalue : ∀ a origin, value = some a → h.origins a = some origin →
      Covers start m loose (g'.targets dest) origin) :
    Sound start m loose g' (h.assign dest value) where
  values x a origin ha ho := by
    rcases Memory.values_assign ha with ⟨hx, hnew⟩ | ⟨hx, hold⟩
    · rw [hx]
      exact hvalue a origin hnew ho
    · rw [hothers x hx]
      exact hs.values x a origin hold ho
  made a o f b origin ha hb ho := by
    obtain ⟨object, hsite, hcovers⟩ := hs.made a o f b origin ha hb ho
    exact ⟨object, hsite, hcovers.mono (hfields _ _) id⟩
  confined := hs.confined

theorem Sound.rebinds (hs : Sound start m loose g h) {P : HeapId → Prop}
    (hrebinds : Rebinds g g' dest P) {value : Option Address}
    (hvalue : ∀ a origin, value = some a → h.origins a = some origin →
      Covers start m loose (g'.targets dest) origin) :
    Sound start m loose g' (h.assign dest value) :=
  hs.assign hrebinds.others
    (fun a f id hid => by rw [hrebinds.fieldTargets]; exact hid) hvalue

/-- Making an object keeps the memory covered if its variable refers to the
id of the instruction. -/
theorem Sound.allocate (hs : Sound start m loose g h) (hclosed : h.Closed)
    {P : HeapId → Prop} (hrebinds : Rebinds g g' dest P) (hsite : Site m o object)
    (hP : P object.id) {a : Address} (ha : h.origins a = none) :
    Sound start m loose g' (h.allocate dest a o) := by
  have hne : ∀ b, h.origins b ≠ none → b ≠ a := by
    rintro b hb rfl
    exact hb ha
  refine ⟨fun x b origin hb ho => ?_, fun b o' f c origin hb hc ho => ?_,
    fun hnot b f c hb hc => ?_⟩
  · rcases Memory.values_allocate hb with ⟨hx, hnew⟩ | ⟨hx, hold⟩
    · rw [hnew, Memory.origins_allocate_self] at ho
      cases ho
      rw [hx]
      exact .inl ⟨object, hsite, (hrebinds.assigned _).2 hP⟩
    · rw [Memory.origins_allocate_of_ne (hne b (hclosed.values x b hold))] at ho
      rw [hrebinds.others x hx]
      exact hs.values x b origin hold ho
  · obtain ⟨hba, hold⟩ := Memory.fields_allocate hc
    rw [Memory.origins_allocate_of_ne hba] at hb
    have hused : h.origins c ≠ none := hclosed.fields b f c (by rw [hb]; exact nofun) hold
    rw [Memory.origins_allocate_of_ne (hne c hused)] at ho
    simp only [hrebinds.fieldTargets]
    exact hs.made b o' f c origin hb hold ho
  · obtain ⟨hba, hold⟩ := Memory.fields_allocate hc
    rw [Memory.origins_allocate_of_ne hba] at hb
    have houtside := hs.confined hnot b f c hb hold
    rw [Memory.origins_allocate_of_ne (hne c (by rw [houtside]; exact nofun))]
    exact houtside

/-! ## Ids of a graph -/

theorem Legal.isUnknown (hm : Orderly start code m) (hg : Legal start m g)
    (hid : g.contains id = true) (hunknown : Unknown start m id) : g.isUnknown id = true := by
  obtain ⟨object, hknown, hkind⟩ := hunknown
  exact HeapGraph.isUnknown_iff.2 ⟨object, hg.object?_of_known hm hid hknown, hkind⟩

theorem Legal.isLoaded (hm : Orderly start code m) (hg : Legal start m g)
    (hid : g.contains id = true) (hloaded : Loaded m id) : g.isLoaded id = true := by
  obtain ⟨o, object, hget, rfl, hkind⟩ := hloaded
  have hobject := hg.object?_of_known hm hid (.inr ⟨o, hget, rfl⟩)
  simp [HeapGraph.isLoaded, hobject, hkind, (hm.suits o object hget).1]

theorem Legal.isMade (hm : Orderly start code m) (hg : Legal start m g) (hsite : Site m o object)
    (hid : g.contains object.id = true) : g.isMade object.id = true := by
  have hobject := hg.object?_of_known hm hid (.inr ⟨o, hsite.1, rfl⟩)
  simp [HeapGraph.isMade, hobject, hsite.2]

/-- Only null has the id of null. -/
theorem Known.ne_null (hknown : Known start m id object) (hm : Orderly start code m)
    (hkind : object.kind ≠ .null) : id ≠ HeapId.null := by
  rintro rfl
  rw [← hm.known_unique (.inl hm.begins.null) hknown] at hkind
  exact hkind rfl

/-! ## Steps -/

/-- What a load finds covers what the field holds. -/
theorem Sound.load (hs : Sound start m loose g h) (hm : Orderly start code m)
    (hg : Legal start m g) {a : Address} (ha : h.values base = some a)
    (hused : h.origins a ≠ none) {b : Address} (hb : h.fields a f = some b)
    (ho : h.origins b = some origin) (hloads : Loads g g' m o dest base f)
    (hkind : ∀ object, m.objects.get? o = some object → object.kind = .unknown) :
    Covers start m loose (g'.targets dest) origin := by
  -- Behind an object of unknown origin the load finds the id of its instruction.
  have hopened : ∀ id ∈ g.targets base, Unknown start m id →
      ∃ id ∈ g'.targets dest, Loaded m id := by
    intro id hid hunknown
    have hcontains := hg.targets base id hid
    have hflag := hg.isUnknown hm hcontains hunknown
    obtain ⟨old, hold, holdkind⟩ := HeapGraph.isUnknown_iff.1 hflag
    have hbase := mem_bases hid hold (by rw [holdkind]; exact nofun)
    obtain ⟨object, hget, hmem⟩ := hloads.opened id hbase hflag
    exact ⟨object.id, hmem, o, object, hget, rfl, hkind object hget⟩
  have hany : (∃ id ∈ g.targets base, Unknown start m id) → (∀ o, origin = .made o → loose) →
      Covers start m loose (g'.targets dest) origin := by
    rintro ⟨id, hid, hunknown⟩ hescaped
    obtain ⟨id', hid', hloaded⟩ := hopened id hid hunknown
    cases origin with
    | outside => exact ⟨id', hid', hloaded.unknown⟩
    | made o => exact .inr ⟨hescaped o rfl, id', hid', hloaded⟩
  obtain ⟨origin', ha'⟩ := Option.ne_none_iff_exists'.1 hused
  have hcovers := hs.values base a origin' ha ha'
  cases origin' with
  | outside =>
      refine hany hcovers fun o ho' => ?_
      by_contra hnot
      have := hs.confined hnot a f b ha' hb
      rw [ho, ho'] at this
      cases this
  | made o' =>
      rcases hcovers with ⟨object, hsite, hid⟩ | ⟨hloose, id, hid, hloaded⟩
      · have hobject := hg.object?_of_known hm (hg.targets base _ hid) (.inr ⟨o', hsite.1, rfl⟩)
        have hbase := mem_bases hid hobject (by rw [hsite.2]; exact nofun)
        obtain ⟨object', hsite', hfield⟩ := hs.made a o' f b origin ha' hb ho
        rw [Option.some.inj (hsite'.1.symm.trans hsite.1)] at hfield
        exact hfield.mono (hloads.found _ hbase) id
      · exact hany ⟨id, hid, hloaded.unknown⟩ fun _ _ => hloose

/-- A store keeps the memory covered, unless it goes through a loaded
reference while objects may have escaped.  It may let an object escape
itself. -/
theorem Sound.store (hs : Sound start m loose g h) (hm : Orderly start code m)
    (hg : Legal start m g) (hclosed : h.Closed) {value : Variable}
    (hstores : Stores g g' base f value) {a : Address} (ha : h.values base = some a)
    (hloose : loose → loose')
    (hsafe : loose → (g.targets base).toList.any g.isLoaded = false)
    (hescape : (∃ b, h.origins b = some .outside) →
      ((g.targets base).toList.any g.isUnknown && (g.targets value).toList.any g.isMade) = true →
      loose') :
    Sound start m loose' g' (h.store a f (h.values value)) := by
  have hfields : ∀ b f' id, id ∈ g.fieldTargets b f' → id ∈ g'.fieldTargets b f' :=
    fun b f' id hid => (hstores.fieldTargets b f' id).2 (.inl hid)
  have hold : Sound start m loose' g' h :=
    hs.mono ⟨fun x id hid => by rw [hstores.targets]; exact hid, hfields⟩ hloose
  refine ⟨hold.values, fun b o f' c origin hb hc ho => ?_, fun hnot b f' c hb hc => ?_⟩
  · rcases Memory.fields_store hc with ⟨rfl, rfl, hnew⟩ | hkept
    · rcases hs.values base b (.made o) ha hb with ⟨object, hsite, hid⟩ | ⟨h', id, hid, hloaded⟩
      · have hknown : Known start m object.id object := .inr ⟨o, hsite.1, rfl⟩
        have hne := hknown.ne_null hm (by rw [hsite.2]; exact nofun)
        refine ⟨object, hsite, (hs.values value c origin hnew ho).mono (fun id hid' => ?_) hloose⟩
        exact (hstores.fieldTargets _ _ id).2
          (.inr ⟨HeapGraph.mem_referents.2 ⟨hid, hne⟩, rfl, hid'⟩)
      · have hnone := List.any_eq_false.1 (hsafe h') id hid
        exact absurd (hg.isLoaded hm (hg.targets base id hid) hloaded) hnone
    · exact hold.made b o f' c origin hb hkept ho
  · rcases Memory.fields_store hc with ⟨rfl, -, hnew⟩ | hkept
    · obtain ⟨origin, ho⟩ := Option.ne_none_iff_exists'.1 (hclosed.values value c hnew)
      cases origin with
      | outside => exact ho
      | made o =>
          obtain ⟨id, hid, hunknown⟩ := hs.values base b .outside ha hb
          rcases hs.values value c (.made o) hnew ho with ⟨object, hsite, hid'⟩ | ⟨h', -⟩
          · refine absurd (hescape ⟨b, hb⟩ ?_) hnot
            rw [Bool.and_eq_true, List.any_eq_true, List.any_eq_true]
            exact ⟨⟨id, hid, hg.isUnknown hm (hg.targets base id hid) hunknown⟩,
              object.id, hid', hg.isMade hm hsite (hg.targets value _ hid')⟩
          · exact absurd (hloose h') hnot
    · exact hold.confined hnot b f' c hb hkept

/-- **One instruction.**  An instruction that stays within the method keeps
the memory covered, unless it stores through a loaded reference while objects
may have escaped. -/
theorem Sound.step (hs : Sound start m loose g h) (hm : Orderly start code m)
    (hg : Legal start m g) (hi : i ∈ code) (hinside : i.op.staysInside = true) (hclosed : h.Closed)
    (hok : apply (g, m) i = .ok (g', m)) (hacts : Memory.Acts i h h') (hloose : loose → loose')
    (hsafe : loose → g.storesThroughLoaded i = false)
    (hescape : (∃ a, h.origins a = some .outside) → g.letsEscape i = true → loose') :
    Sound start m loose' g' h' := by
  rw [apply_eq_ok_iff] at hok
  unfold Memory.Acts at hacts
  unfold HeapGraph.storesThroughLoaded at hsafe
  unfold HeapGraph.letsEscape at hescape
  have hkind : ∀ object, m.objects.get? i.offset = some object →
      i.op.heapEffect.siteKind? = some object.kind :=
    fun object hget => hm.kind_eq hi hget
  cases heffect : i.op.heapEffect with
  | create dest type =>
      rw [heffect] at hok hacts hkind
      obtain ⟨object, u, hsite, hadd, hassign⟩ := assignSite_eq_ok_iff.1 hok
      obtain ⟨a, hfree, rfl⟩ := hacts
      have hget := HeapSites.get?_site hsite
      have hopens := opens_of_adds (HeapGraph.adds_of_addObject hadd)
      exact (hs.mono hopens.within hloose).allocate hclosed (rebinds_assign hassign)
        ⟨hget, (Option.some.inj (hkind object hget)).symm⟩ (List.mem_singleton_self _) hfree
  | null dest =>
      rw [heffect] at hok hacts
      rw [hacts]
      refine (hs.rebinds (rebinds_assign hok.1) ?_).mono (.refl _) hloose
      exact fun _ _ ha => nomatch ha
  | copy dest source =>
      rw [heffect] at hok hacts
      rw [hacts]
      have hrebinds := rebinds_assign hok.1
      refine (hs.rebinds hrebinds fun a origin ha ho => ?_).mono (.refl _) hloose
      exact (hs.values source a origin ha ho).mono (fun id hid => (hrebinds.assigned id).2 hid) id
  | load dest base field =>
      rw [heffect] at hok hacts hkind
      obtain ⟨a, ha, rfl⟩ := hacts
      have hloads := loads_load hok
      refine (hs.assign hloads.others hloads.fieldTargets fun b origin hb ho => ?_).mono
        (.refl _) hloose
      exact hs.load hm hg ha (hclosed.values base a ha) hb ho hloads
        fun object hget => (Option.some.inj (hkind object hget)).symm
  | store base field value =>
      rw [heffect] at hok hacts hsafe hescape
      obtain ⟨a, ha, rfl⟩ := hacts
      exact hs.store hm hg hclosed (stores_store hok.1) ha hloose hsafe hescape
  | outside dest => exact absurd heffect (Operation.heapEffect_ne_outside hinside dest)
  | clear dest =>
      rw [heffect] at hok hacts
      rw [hacts, show g' = g.detach dest from hok.1]
      refine (hs.rebinds (rebinds_detach g dest) ?_).mono (.refl _) hloose
      exact fun _ _ ha => nomatch ha
  | none =>
      rw [heffect] at hok hacts
      rw [hacts, show g' = g from congrArg Prod.fst hok]
      exact hs.mono (.refl _) hloose

/-! ## Runs -/

/-- An instruction and the graph before it. -/
abbrev Point := HeapGraph × Instruction

/-- The points of a piece of code under a table. -/
def points (m : HeapSites) : HeapGraph → List Instruction → List Point
  | _, [] => []
  | g, i :: rest =>
    (g, i) ::
      match apply (g, m) i with
      | .ok s => points m s.1 rest
      | .error _ => []

/-- An object may have escaped at one of the points. -/
def Escaped (front : List Point) : Prop := ∃ p ∈ front, p.1.letsEscape p.2 = true

/-- Once an object may have escaped, no store goes through a loaded
reference. -/
def Confines (run : List Point) : Prop :=
  run.Pairwise fun p q => ¬ (p.1.letsEscape p.2 = true ∧ q.1.storesThroughLoaded q.2 = true)

instance (run : List Point) : Decidable (Confines run) :=
  inferInstanceAs (Decidable (run.Pairwise _))

theorem Confines.safe {front rest : List Point} {p : Point} (h : Confines (front ++ p :: rest))
    (hescaped : Escaped front) : p.1.storesThroughLoaded p.2 = false := by
  obtain ⟨q, hq, hescape⟩ := hescaped
  have hpair := (List.pairwise_append.1 h).2.2 q hq p List.mem_cons_self
  simpa [hescape] using hpair

/-- What holds where an execution has come behind the points `front`, when
`outsiders` says whether there have been objects from outside. -/
structure Tracks (start : HeapGraph) (m : HeapSites) (outsiders : Prop) (front : List Point)
    (g : HeapGraph) (h : Memory) : Prop where
  closed : h.Closed
  outside : ∀ a, h.origins a = some .outside → outsiders
  sound : Sound start m (outsiders ∧ Escaped front) g h

theorem Tracks.step {front : List Point} (ht : Tracks start m outsiders front g h)
    (hm : Orderly start code m) (hg : Legal start m g) (hi : i ∈ code)
    (hinside : i.op.staysInside = true) (hok : apply (g, m) i = .ok (g', m))
    (hacts : Memory.Acts i h h')
    (hsafe : outsiders → Escaped front → g.storesThroughLoaded i = false) :
    Tracks start m outsiders (front ++ [(g, i)]) g' h' where
  closed := ht.closed.acts hinside hacts
  outside a ha := ht.outside a (Memory.outside_of_acts hinside hacts ha)
  sound := by
    refine ht.sound.step hm hg hi hinside ht.closed hok hacts ?_ ?_ ?_
    · rintro ⟨hout, p, hp, hescape⟩
      exact ⟨hout, p, List.mem_append_left _ hp, hescape⟩
    · exact fun hloose => hsafe hloose.1 hloose.2
    · rintro ⟨a, ha⟩ hescape
      exact ⟨ht.outside a ha, (g, i), List.mem_append_right _ (List.mem_singleton_self _), hescape⟩

/-- **A piece of code.**  The memory stays covered through a piece of code
whose points are confined. -/
theorem Tracks.block {front : List Point} (ht : Tracks start m outsiders front g h)
    (hm : Orderly start code m) (hg : Legal start m g)
    (hcode : ∀ i ∈ piece, i ∈ code) (hinside : ∀ i ∈ code, i.op.staysInside = true)
    (hok : piece.foldlM apply (g, m) = .ok (g', m)) (hrun : Execution Memory.Acts piece h h')
    (hconfines : outsiders → Confines (front ++ points m g piece)) :
    Tracks start m outsiders (front ++ points m g piece) g' h' := by
  induction hrun generalizing front g with
  | nil =>
      cases hok
      rw [points, List.append_nil]
      exact ht
  | @cons i rest h₀ h₁ h₂ hacts _ ih =>
      obtain ⟨u, hu, hrest⟩ := replays_apply.foldlM_cons_ok hok
      have hi := hcode i List.mem_cons_self
      rw [points, hu, List.append_cons] at hconfines ⊢
      have hsafe : outsiders → Escaped front → g.storesThroughLoaded i = false := by
        intro hout
        have hall := hconfines hout
        rw [← List.append_cons] at hall
        exact hall.safe
      have hstep := ht.step hm hg hi (hinside i hi) hu hacts hsafe
      have hnext : InOrder start code (u, m) := inOrder_apply ⟨hm, hg⟩ hi hu
      exact ih hstep hnext.graph
        (fun j hj => hcode j (List.mem_cons_of_mem i hj)) hrest hconfines

/-! ## Solutions -/

variable {c : Cfg} {method : Option MethodRef} {regions : List Region} {config limits : Config}
  {parameters : List Variable} {ids : Allocator} {s : Solution HeapSites HeapGraph} {n : NodeId}
  {path : List NodeId} {h₀ : Memory}

/-- The points of a node in a solution. -/
def pointsAt (c : Cfg) (s : Solution HeapSites HeapGraph) (n : NodeId) : List Point :=
  match s.input? n with
  | some g => points s.memory g (c.codeOf n)
  | none => []

/-- At the entry only parameters refer to objects, and these come from
outside. -/
theorem tracks_entry (hstarts : Starts parameters start ids) (hinitial : h₀.Initial parameters)
    (m : HeapSites) : Tracks start m (∃ a, h₀.origins a = some .outside) [] start h₀ where
  closed := hinitial.closed
  outside a ha := ⟨a, ha⟩
  sound := by
    refine ⟨fun x a origin ha ho => ?_, fun a o f b origin ha => ?_, fun _ a f b ha hb => ?_⟩
    · cases hinitial.outside a origin ho
      obtain ⟨id, hid, hunknown⟩ := hstarts.parameters x (hinitial.parameters x a ha)
      obtain ⟨object, hobject, hkind⟩ := HeapGraph.isUnknown_iff.1 hunknown
      exact ⟨id, hid, object, .inl hobject, hkind⟩
    · cases hinitial.outside a _ ha
    · have hused := hinitial.closed.fields a f b (by rw [ha]; exact nofun) hb
      obtain ⟨origin, ho⟩ := Option.ne_none_iff_exists'.1 hused
      rw [ho, hinitial.outside b origin ho]

/-- What flows along an edge: the edges of a fact behind a node are edges of
the fact before the next one. -/
theorem within_of_edge {family : Nat} {ins outs ends : NodeId → HeapGraph} (hc : c.Wired)
    (hstart : Begins start)
    (hsettles : (analysis c family start).Settles c.view m ins outs ends)
    (hlegal : ∀ n < c.size, Legal start m (outs n)) {k : NodeId} (hedge : n ∈ c.view.succ k) :
    (ends k).Within (ins n) := by
  have hpred : k ∈ c.view.pred n := hc.linked.mem_pred.2 hedge
  have hne : n ≠ (analysis c family start).origin := by
    rintro rfl
    exact hc.not_to_entry hedge
  have hjoin := hsettles.join n (hc.linked.target_lt hedge) hne (List.ne_nil_of_mem hpred)
  have hfacts : ∀ g ∈ (c.view.pred n).map outs, Legal start m g := by
    intro g hg
    obtain ⟨p, hp, rfl⟩ := List.mem_map.1 hg
    exact hlegal p (hc.linked.source_lt (hc.linked.mem_pred.1 hp))
  obtain ⟨htargets, hfields⟩ :=
    HeapGraph.edges_of_sameEdges (hsettles.same k (hc.linked.source_lt hedge))
  refine .trans ⟨fun x id hid => ?_, fun a f id hid => ?_⟩
    (within_join hstart hfacts hjoin (outs k) (List.mem_map_of_mem hpred))
  · rw [htargets]
    exact hid
  · rw [hfields]
    exact hid

/-- **Along a path.**  Where an execution along a path arrives, the fact of
the solution covers the memory, if the points of the path are confined or
there have been no objects from outside. -/
theorem tracks_path (hbuild : Cfg.build method code regions config = .ok c)
    (hinside : ∀ i ∈ code, i.op.staysInside = true)
    (hsolve : solve c parameters limits ids = .ok s) (hinitial : h₀.Initial parameters)
    (hpath : c.view.Path Cfg.entry n path)
    (hrun : Execution Memory.Acts (path.dropLast.flatMap c.codeOf) h₀ h)
    (hconfines : (∃ a, h₀.origins a = some .outside) →
      Confines (path.dropLast.flatMap (pointsAt c s))) :
    ∃ start facts, s.input? n = some facts ∧ Orderly start code s.memory ∧
      Legal start s.memory facts ∧
      Tracks start s.memory (∃ a, h₀.origins a = some .outside)
        (path.dropLast.flatMap (pointsAt c s)) facts h := by
  have hwired := Cfg.build_wired hbuild
  obtain ⟨hcode, hoffsets⟩ := Cfg.code_of_build hbuild
  obtain ⟨⟨start, ids'⟩, hentry, hsolved⟩ := bind_eq_ok.1 hsolve
  have hstarts := starts_of_entry hentry
  obtain ⟨hm, ins, outs, ends, hsettles, hfacts⟩ :=
    (carries hstarts hcode).settles_of_solve (hstarts.orderly hoffsets) hwired.built hwired.exit_lt
      hsolved
  have hinput : ∀ n < c.size, s.input? n = some (ins n) := fun n hn => (hfacts n hn).1
  have hn : n < c.size := View.Reaches.lt_size hwired.linked ⟨path, hpath⟩ hwired.entry_lt
  refine ⟨start, ins n, hinput n hn, hm, (hfacts n hn).2.1, ?_⟩
  refine Cfg.arrival_induction (P := fun front n h =>
    ((∃ a, h₀.origins a = some .outside) → Confines (front.flatMap (pointsAt c s))) →
      Tracks start s.memory (∃ a, h₀.origins a = some .outside) (front.flatMap (pointsAt c s))
        (ins n) h) ?_ ?_ hpath hrun hconfines
  · intro _
    have hboundary : ins Cfg.entry = start := hsettles.boundary
    rw [hboundary]
    exact tracks_entry hstarts hinitial s.memory
  · intro front k n h h' ht hblock hedge hconfines
    have hk : k < c.size := hwired.linked.source_lt hedge
    have hpoints : pointsAt c s k = points s.memory (ins k) (c.codeOf k) := by
      rw [pointsAt, hinput k hk]
    rw [List.flatMap_append, List.flatMap_singleton] at hconfines ⊢
    have hbefore := ht fun hout => (List.pairwise_append.1 (hconfines hout)).1
    rw [hpoints] at hconfines ⊢
    have hbehind := hbefore.block hm (hfacts k hk).2.1 (hcode k) hinside
      (hsettles.transfer k hk) hblock hconfines
    have hwithin := within_of_edge hwired hstarts.begins hsettles
      (fun n hn => (hfacts n hn).2.2) hedge
    exact ⟨hbehind.closed, hbehind.outside, hbehind.sound.mono hwithin id⟩

end PointsTo

end MethodFlow
