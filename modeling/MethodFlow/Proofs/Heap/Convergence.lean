import Mathlib.Data.Finset.Prod
import MethodFlow.Proofs.Cfg.Handlers
import MethodFlow.Proofs.Flow.Growth
import MethodFlow.Proofs.Heap.Failures

/-!
# The points-to analysis settles

A run of the points-to analysis can only end in one of two ways: it has no ids
left, or it reaches a solution.  Its graphs only rise, and there is only so
much that a graph can show: all ids come from the parameters and from the
instructions, one from each, and only variables and fields of the method are
mentioned.

The objects of a graph are those of the parameters, which belong to no
instruction, and those in the table, which has one for each instruction.  So
an instruction never has two nodes in one graph.

## Main results

* `PointsTo.grows`: the analysis has all that a rising run needs.
* `PointsTo.solve_terminates`: with enough passes the analysis is solved,
  unless there are too few ids.
-/

namespace MethodFlow

namespace HeapScope

/-- All that graphs with ids below a bound may show. -/
def atoms (scope : HeapScope) (bound : Nat) : Finset HeapAtom :=
  (Finset.range bound).image HeapAtom.node ∪ scope.names.toFinset.image HeapAtom.known ∪
    (scope.names.toFinset ×ˢ Finset.range bound).image (fun e => HeapAtom.edge e.1 e.2) ∪
    (Finset.range bound ×ˢ scope.fields.toFinset ×ˢ Finset.range bound).image
      fun e => HeapAtom.field e.1 e.2.1 e.2.2

/-- How much a graph does not show. -/
def room (scope : HeapScope) (bound : Nat) (g : HeapGraph) : Nat :=
  ((scope.atoms bound).filter fun atom => ¬ g.Shows atom).card

end HeapScope

namespace HeapGraph

variable {g h : HeapGraph} {scope : HeapScope} {bound : Nat} {x : Variable} {id : HeapId}

theorem known_of_target (hid : id ∈ g.targets x) : g.Shows (.known x) := by
  obtain ⟨ids, hentry, -⟩ := SortedMap.mem_getD_get?.1 hid
  rw [Shows, SortedMap.contains, SortedMap.get?_eq_some_iff.2 hentry]
  rfl

theorem Framed.mem_atoms (hg : g.Framed scope) (hids : ∀ id, g.contains id = true → id < bound)
    {atom : HeapAtom} (hatom : g.Shows atom) : atom ∈ scope.atoms bound := by
  cases atom with
  | node id => simp [HeapScope.atoms, hids id hatom]
  | known x =>
      have hx : x ∈ scope.names := hg.allowed _ hatom
      simp [HeapScope.atoms, hx]
  | edge x id =>
      have hx : x ∈ scope.names := hg.allowed _ (known_of_target hatom)
      simp [HeapScope.atoms, hx, hids id (hg.intact.contains_of_targets hatom)]
  | field a f id =>
      have hf : f ∈ scope.fields := hg.allowed _ hatom
      obtain ⟨ha, hid⟩ := hg.intact.contains_of_fieldTargets hatom
      simp [HeapScope.atoms, hf, hids a ha, hids id hid]

/-- A graph that rises leaves less room. -/
theorem room_lt (hg : g.Framed scope) (hh : h.Framed scope)
    (hids : ∀ id, h.contains id = true → id < bound) (hle : g.Below h)
    (hdiffers : g.sameEdges h = false) : scope.room bound h < scope.room bound g := by
  obtain ⟨atom, hnew, hmissing⟩ : ∃ atom, h.Shows atom ∧ ¬ g.Shows atom := by
    by_contra hnone
    have hback : h.Below g := fun atom hatom => by
      by_contra hmissing
      exact hnone ⟨atom, hatom, hmissing⟩
    rw [sameEdges_of_below hg.intact hh.intact hle hback] at hdiffers
    cases hdiffers
  refine Finset.card_lt_card ((Finset.ssubset_iff_of_subset fun a ha => ?_).2 ⟨atom, ?_, ?_⟩)
  · obtain ⟨hmem, hnot⟩ := Finset.mem_filter.1 ha
    exact Finset.mem_filter.2 ⟨hmem, fun hshows => hnot (hle a hshows)⟩
  · exact Finset.mem_filter.2 ⟨hh.mem_atoms hids hnew, hmissing⟩
  · exact fun ha => (Finset.mem_filter.1 ha).2 hnew

end HeapGraph

namespace PointsTo

variable {start g g' : HeapGraph} {m : HeapSites} {facts : List HeapGraph} {scope : HeapScope}
  {code : List Instruction} {first family : Nat} {atom : HeapAtom} {id : HeapId}
  {object : HeapObject} {o : Offset}

/-- What holds of a fact under the table of the run. -/
structure Sits (start : HeapGraph) (scope : HeapScope) (m : HeapSites) (g : HeapGraph) : Prop where
  legal : Legal start m g
  framed : g.Framed scope

/-! ## Joins -/

theorem Legal.agree (hm : Orderly start code m) (hg : Legal start m g) (hh : Legal start m g') :
    g.Agree g' :=
  fun id _ _ ha hb => hm.known_unique (hg.known id _ ha) (hh.known id _ hb)

theorem Sits.union {u : HeapGraph} (hm : Orderly start code m) (hg : Sits start scope m g)
    (hh : Sits start scope m g') (hu : g.union g' = .ok u) : Sits start scope m u :=
  ⟨hg.legal.union hm.begins hh.legal hu, hg.framed.union hh.framed hu⟩

/-- Facts can be joined, and a join shows what any of them shows. -/
theorem exists_union (hm : Orderly start code m) (hg : Sits start scope m g)
    (hfacts : ∀ h ∈ facts, Sits start scope m h) :
    ∃ u, facts.foldlM HeapGraph.union g = .ok u ∧ Sits start scope m u ∧
      ∀ atom, u.Shows atom ↔ g.Shows atom ∨ ∃ h ∈ facts, h.Shows atom := by
  induction facts generalizing g with
  | nil => exact ⟨g, rfl, hg, by simp⟩
  | cons h rest ih =>
      have hh := hfacts h List.mem_cons_self
      cases hu : g.union h with
      | error e =>
          exact absurd hu (hg.framed.union_ne_error hh.framed (hg.legal.agree hm hh.legal))
      | ok u =>
          obtain ⟨w, hw, hsits, hshows⟩ :=
            ih (hg.union hm hh hu) fun k hk => hfacts k (List.mem_cons_of_mem h hk)
          refine ⟨w, ?_, hsits, fun atom => ?_⟩
          · rw [List.foldlM_cons, hu]
            exact hw
          · rw [hshows, HeapGraph.shows_union hg.framed.intact hh.framed.intact hu, or_assoc,
              List.exists_mem_cons_iff]

theorem exists_join (family : Nat) (hm : Orderly start code m) (hsome : facts ≠ [])
    (hfacts : ∀ h ∈ facts, Sits start scope m h) :
    ∃ u, join family facts = .ok u ∧ Sits start scope m u ∧
      ∀ atom, u.Shows atom ↔ ∃ h ∈ facts, h.Shows atom := by
  cases facts with
  | nil => exact absurd rfl hsome
  | cons h rest =>
      obtain ⟨u, hu, hsits, hshows⟩ := exists_union hm (hfacts h List.mem_cons_self)
        fun k hk => hfacts k (List.mem_cons_of_mem h hk)
      exact ⟨u, hu, hsits, fun atom => by rw [hshows, List.exists_mem_cons_iff]⟩

/-! ## The analysis -/

/-- Everything shows what the graph of null alone shows. -/
theorem ofFamily_below (hg : Legal start m g) : (HeapGraph.ofFamily family).Below g := by
  intro atom hatom
  rw [HeapGraph.shows_ofFamily.1 hatom]
  exact HeapGraph.contains_iff.2 ⟨_, hg.null⟩

/-- A transfer keeps everything in place, and it fails only for want of
ids. -/
private theorem running_block {c : Cfg} {n : NodeId} (hcode : ∀ n, ∀ i ∈ c.codeOf n, i ∈ code)
    (hscope : ∀ i ∈ code, scope.Covers i) (hm : Stocked start code first m)
    (hg : Sits start scope m g) :
    (∀ s, (c.codeOf n).foldlM apply (g, m) = .ok s → Running start code scope first s) ∧
      ∀ e, (c.codeOf n).foldlM apply (g, m) = .error e → Exhausts first code e := by
  have hstart : Running start code scope first (g, m) := ⟨hm, hg.legal, hg.framed⟩
  have hstep : ∀ i ∈ c.codeOf n, ∀ s s', Running start code scope first s →
      apply s i = .ok s' → Running start code scope first s' := fun i hi s s' hs hok =>
    (keeps_running (hcode n i hi) (hscope i (hcode n i hi))).apply hs hok
  refine ⟨fun s hok => foldlM_keeps hstep hstart hok, fun e herror => ?_⟩
  exact foldlM_fails hstep (fun i hi s e hs hfail =>
    hs.fails_of_apply (hcode n i hi) (hscope i (hcode n i hi)) hfail) hstart herror

/-- **The analysis rises**, as a run that settles has to. -/
theorem grows {c : Cfg} (first : Nat) (hcode : ∀ n, ∀ i ∈ c.codeOf n, i ∈ code)
    (hscope : ∀ i ∈ code, scope.Covers i) (hlegal : ∀ m, Legal start m start)
    (hframed : start.Framed scope) :
    (analysis c scope.family start).Grows (Stocked start code first) HeapSites.Extends
      (Sits start scope) HeapGraph.Below (scope.room (first + code.length))
      (scope.atoms (first + code.length)).card (Exhausts first code) where
  refl := .refl
  trans := .trans
  mono hextends hg := ⟨hg.legal.mono hextends, hg.framed⟩
  boundary _ := ⟨hlegal _, hframed⟩
  initial hm := ⟨.ofFamily hm.begins _ _, HeapGraph.framed_ofFamily scope⟩
  join {m facts x} hm hfacts hok := by
    cases facts with
    | nil =>
        cases hok
        exact ⟨.ofFamily hm.begins _ _, HeapGraph.framed_ofFamily scope⟩
    | cons h rest =>
        obtain ⟨u, hu, hsits, -⟩ :=
          exists_join scope.family hm.toOrderly (List.cons_ne_nil h rest) hfacts
        cases hok.symm.trans hu
        exact hsits
  transfer hm hg hok := by
    have hend := (running_block hcode hscope hm hg).1 _ hok
    exact ⟨hend.table, replays_apply.foldlM.grows hok, hend.graph, hend.framed⟩
  replay hok hlast := replays_apply.foldlM.again hok hlast
  le_refl := HeapGraph.Below.refl
  le_trans _ _ _ := HeapGraph.Below.trans
  initial_le _ hg := ofFamily_below hg.legal
  join_least hm hsome hfacts := by
    obtain ⟨u, hu, -, hshows⟩ := exists_join scope.family hm.toOrderly hsome hfacts
    refine ⟨u, hu, fun h hh atom hatom => (hshows atom).2 ⟨h, hh, hatom⟩, fun z hz atom hatom => ?_⟩
    obtain ⟨h, hh, hatom⟩ := (hshows atom).1 hatom
    exact hz h hh atom hatom
  fails hm hg herror := (running_block hcode hscope hm hg).2 _ herror
  transfer_mono {m n x x' y y'} hm hg hh hle hok hok' :=
    (Facing.block ⟨hm.toOrderly, hg.legal, hh.legal, hle⟩ (hcode n) hok hok').below
  room_le _ _ := Finset.card_le_card (Finset.filter_subset _ _)
  room_lt hm hg hh hle hdiffers :=
    HeapGraph.room_lt hg.framed hh.framed
      (fun _ hid => Nat.lt_of_lt_of_le (hm.lt_next hh.legal hid) hm.next_le) hle hdiffers

/-! ## Solutions -/

/-- An object with an offset is the one of the instruction there. -/
theorem Orderly.site_of_offset (hm : Orderly start code m) (hknown : Known start m id object)
    (ho : object.offset = some o) : m.objects.get? o = some object ∧ object.id = id := by
  rcases hknown with hstart | ⟨o', hget, hid⟩
  · by_cases hnull : id = HeapId.null
    · rw [hnull, hm.begins.null] at hstart
      cases hstart
      cases ho
    · rw [(hm.begins.outside id object hstart hnull).2.2] at ho
      cases ho
  · rw [(hm.suits o' object hget).1] at ho
    cases ho
    exact ⟨hget, hid⟩

end PointsTo

/-- No two nodes have the offset of one instruction. -/
def HeapGraph.SitesDistinct (g : HeapGraph) : Prop :=
  ∀ id id' n n' o, g.node? id = some n → g.node? id' = some n' → n.object.offset = some o →
    n'.object.offset = some o → id = id'

namespace PointsTo

variable {start g : HeapGraph} {m : HeapSites} {code : List Instruction}

theorem Legal.sitesDistinct (hm : Orderly start code m) (hg : Legal start m g) :
    g.SitesDistinct := by
  intro id id' n n' o hn hn' ho ho'
  have hknown : ∀ {a k}, g.node? a = some k → Known start m a k.object := by
    intro a k hk
    exact hg.known a k.object (by rw [HeapGraph.object?, hk, Option.map_some])
  obtain ⟨hget, hid⟩ := hm.site_of_offset (hknown hn) ho
  obtain ⟨hget', hid'⟩ := hm.site_of_offset (hknown hn') ho'
  rw [hget, Option.some.injEq] at hget'
  rw [← hid, ← hid', hget']

variable {method : Option MethodRef} {regions : List Region} {config : Config} {c : Cfg}
  {parameters : List Variable} {ids : Allocator}

/-- The variables and fields of a method. -/
def scopeOf (code : List Instruction) (parameters : List Variable) (family : Nat) : HeapScope where
  family
  names := parameters ++ code.filterMap fun i => i.op.heapEffect.dest?
  fields := code.filterMap fun i => i.op.heapEffect.field?

theorem covers_scopeOf (code : List Instruction) (parameters : List Variable) (family : Nat) :
    ∀ i ∈ code, (scopeOf code parameters family).Covers i :=
  fun i hi => ⟨fun _ hx => List.mem_append_right _ (List.mem_filterMap.2 ⟨i, hi, hx⟩),
    fun _ hf => List.mem_filterMap.2 ⟨i, hi, hf⟩⟩

/-- What the analysis does behind the entry. -/
theorem solve_eq {start : HeapGraph} {ids' : Allocator} (limits : Config)
    (hentry : entry parameters ids = .ok (start, ids')) :
    solve c parameters limits ids =
      (analysis c ids'.family start).solve c limits ⟨ids', .empty⟩ := by
  rw [solve, hentry]
  rfl

theorem Starts.stocked {start : HeapGraph} (hstarts : Starts parameters start ids)
    (hoffsets : ∀ i ∈ code, ∀ j ∈ code, i.offset = j.offset → i = j) (hids : 0 < ids.next) :
    Stocked start code ids.next ⟨ids, .empty⟩ where
  toOrderly := hstarts.orderly hoffsets
  positive := hids
  counted := Nat.le_add_right _ _

/-- **The points-to analysis always succeeds**, given ids and passes enough:
there is a number of passes with which it is solved, unless parameters and
instructions are more than there are ids left.  In the solution every node has
facts on both sides, and no graph among them has two nodes for one
instruction. -/
theorem solve_terminates (hbuild : Cfg.build method code regions config = .ok c)
    (hids : 0 < ids.next) :
    ∃ bound, ∀ limits : Config, bound ≤ limits.maxIterations →
      (HeapId.max < ids.next + parameters.length + code.length ∧
          solve c parameters limits ids = .error .heapIdsExhausted) ∨
        ∃ s, solve c parameters limits ids = .ok s ∧ ∀ n < c.size, ∃ before after,
          s.input? n = some before ∧ s.output? n = some after ∧
            before.SitesDistinct ∧ after.SitesDistinct := by
  obtain ⟨hcode, hoffsets⟩ := Cfg.code_of_build hbuild
  have hadmitting : Admitting (scopeOf code parameters ids.family) (.ofFamily ids.family, ids) :=
    admitting_ofFamily hids rfl
  rcases entry_spec hadmitting fun x hx => List.mem_append_left _ hx with
    ⟨⟨start, ids'⟩, hentry, hs, hnext⟩ | ⟨hentry, hfew⟩
  · have hstarts := starts_of_entry hentry
    have hgrows := grows ids'.next hcode (covers_scopeOf code parameters ids.family)
      hstarts.legal hs.framed
    -- Every node may rise through all atoms, and a last pass changes nothing.
    refine ⟨c.size * (((scopeOf code parameters ids.family).atoms
      (ids'.next + code.length)).card + 1) + 1, fun limits hlimit => ?_⟩
    rw [solve_eq limits hentry, hs.family]
    rcases hgrows.solve_ends (hstarts.stocked hoffsets hs.positive) hlimit with
      ⟨e, ⟨rfl, hfew⟩, herror⟩ | ⟨s, hsolve, hm, hfacts⟩
    · refine .inl ⟨?_, herror⟩
      rw [← hnext]
      exact hfew
    · refine .inr ⟨s, hsolve, fun n hn => ?_⟩
      obtain ⟨before, after, hbefore, hafter, hsits, hsits'⟩ := hfacts n hn
      exact ⟨before, after, hbefore, hafter, hsits.legal.sitesDistinct hm.toOrderly,
        hsits'.legal.sitesDistinct hm.toOrderly⟩
  · refine ⟨0, fun limits _ => .inl ⟨?_, ?_⟩⟩
    · exact Nat.lt_of_lt_of_le hfew (Nat.le_add_right _ _)
    · rw [solve, entry, hentry]
      rfl

/-- A loop that puts a new node in front of the list `p` and drops the old
front, which is of unknown origin at first. -/
def listLoop : List Instruction :=
  [⟨0, .createObject ⟨"x", none, .local⟩ "Node" ⟨"Node", ".ctor", "()"⟩⟩,
    ⟨1, .loadField ⟨"y", none, .local⟩ ⟨"p", none, .parameter⟩ ⟨"Node", "next"⟩⟩,
    ⟨2, .storeField ⟨"x", none, .local⟩ ⟨"Node", "next"⟩ ⟨"y", none, .local⟩⟩,
    ⟨3, .copy ⟨"p", none, .parameter⟩ ⟨"x", none, .local⟩⟩,
    ⟨4, .branch .conditional 0⟩, ⟨5, .return (some ⟨"p", none, .parameter⟩)⟩]

/-- The graph of the loop. -/
def listLoopGraph : Cfg := ⟨none, (Cfg.Layout.of listLoop []).graph .default⟩

/-- The loop needs three ids at most, so the analysis always succeeds. -/
theorem solve_terminates_listLoop :
    Cfg.build none listLoop [] .default = .ok listLoopGraph ∧
      ∃ bound, ∀ limits : Config, bound ≤ limits.maxIterations →
        ∃ s, solve listLoopGraph [⟨"p", none, .parameter⟩] limits (.new 0) = .ok s ∧
          ∀ n < listLoopGraph.size, ∃ before after, s.input? n = some before ∧
            s.output? n = some after ∧ before.SitesDistinct ∧ after.SitesDistinct := by
  have hbuild : Cfg.build none listLoop [] .default = .ok listLoopGraph :=
    Cfg.build_eq_ok_iff.2 ⟨by decide, rfl⟩
  have hids : 0 < (Allocator.new 0).next := by decide
  obtain ⟨bound, hbound⟩ := solve_terminates hbuild hids
  refine ⟨hbuild, bound, fun limits hlimit => (hbound limits hlimit).resolve_left ?_⟩
  rintro ⟨hfew, -⟩
  exact absurd hfew (by decide)

end PointsTo

end MethodFlow
