import MethodFlow.Proofs.Data.Folds
import MethodFlow.Proofs.Flow.CopySoundness

/-!
# Copies that every path makes

A copy is in force behind a piece of code when one of its instructions makes
it and none behind that one writes either variable.  On a graph all of whose
nodes can be reached, copy propagation finds exactly the copies that are in
force on every path.

That it finds no others follows from the equations of the solution alone.
That it misses none does not: the equations also hold of facts with too few
copies, for instance around a loop.  It follows from how the run goes.  Before
the first pass no fact is missing any copy, because there are no facts, and a
node brought up to date passes on what it gets from its predecessors.  The
initial fact, which is missing all copies, never comes in: when the turn of a
node comes, one of its predecessors has had its turn before.

## Main results

* `Analysis.Keeps.exists_of_solve`: what each update at its turn keeps holds
  of the facts of a solution.
* `Copies.source?_foldl_apply_iff`: which copies are in force behind a piece
  of code.
* `Copies.solve_precise`: the copies at a node are those in force on every
  path to it.
-/

namespace MethodFlow

/-! ## What a run keeps -/

namespace Analysis

variable {σ φ : Type} {a : Analysis σ φ} {v : View} {s s' : State σ φ} {size : Nat}
  {order : List NodeId} {Legal : (NodeId → Option φ) → Prop}

/-- A property of what flows out of the nodes that holds while nothing does,
and that is kept when a node is brought up to date at its turn, that is, when
the nodes before it in the order have facts. -/
structure Keeps (a : Analysis σ φ) (v : View) (order : List NodeId)
    (Legal : (NodeId → Option φ) → Prop) : Prop where
  start : Legal fun _ => none
  step : ∀ {front back : List NodeId} {n : NodeId} {outs : NodeId → Option φ} {x y : φ},
    order = front ++ n :: back → (∀ m ∈ front, outs m ≠ none) → Legal outs →
      a.Computes v outs n x y → Legal (Function.update outs n (some y))

namespace Keeps

/-- The rest of a pass, the nodes before it having had their turn. -/
private theorem foldlM (h : a.Keeps v order Legal) (ha : a.Plain) (horder : ∀ n ∈ order, n < size)
    (back : List NodeId) :
    ∀ {front : List NodeId} {s : State σ φ}, order = front ++ back → s.facts.Fits size →
      (∀ m ∈ front, s.facts.out? m ≠ none) → Legal s.facts.out? →
      back.foldlM (a.update v) s = .ok s' → s'.facts.Fits size ∧ Legal s'.facts.out? := by
  induction back with
  | nil =>
      intro front s _ hfits _ hlegal hrest
      cases hrest
      exact ⟨hfits, hlegal⟩
  | cons n back ih =>
      intro front s hsplit hfits hfront hlegal hrest
      rw [List.foldlM_cons] at hrest
      obtain ⟨s₁, hupdate, hrest⟩ := bind_eq_ok.1 hrest
      have hn : n < size := horder n (by rw [hsplit]; simp)
      obtain ⟨x, y, hupdated⟩ := updated_of_update ha hfits hn hupdate
      have hsplit₁ : order = (front ++ [n]) ++ back := by rw [hsplit]; simp
      have hfront₁ : ∀ m ∈ front ++ [n], s₁.facts.out? m ≠ none := by
        intro m hm
        rw [hupdated.out?]
        rcases List.mem_append.1 hm with hm | hm
        · exact Ascent.ne_none_update (hfront m hm)
        · rw [List.mem_singleton.1 hm]
          simp
      have hlegal₁ : Legal s₁.facts.out? := by
        rw [hupdated.out?]
        exact h.step hsplit hfront hlegal hupdated.computes
      exact ih hsplit₁ hupdated.fits hfront₁ hlegal₁ hrest

private theorem iterate (h : a.Keeps v order Legal) (ha : a.Plain)
    (horder : ∀ n ∈ order, n < size) {limit remaining passes : Nat} (hfits : s.facts.Fits size)
    (hlegal : Legal s.facts.out?)
    (hrun : (a.iterate v order limit remaining passes s).result = .ok s') :
    Legal s'.facts.out? := by
  induction remaining generalizing passes s with
  | zero => cases hrun
  | succ remaining ih =>
      simp only [Analysis.iterate] at hrun
      cases hpass : a.pass v order s with
      | error e =>
          rw [hpass] at hrun
          cases hrun
      | ok s₁ =>
          obtain ⟨hfits₁, hlegal₁⟩ := h.foldlM ha horder order (List.nil_append _).symm
            (show ({ s with changed := false } : State σ φ).facts.Fits size from hfits)
            (fun m hm => absurd hm List.not_mem_nil) hlegal hpass
          simp only [hpass] at hrun
          by_cases hchanged : s₁.changed = true
          · rw [if_pos hchanged] at hrun
            exact ih hfits₁ hlegal₁ hrun
          · rw [if_neg hchanged] at hrun
            cases hrun
            exact hlegal₁

/-- A solution is computed from what flows out of its nodes, and this has
every property that the run keeps. -/
theorem exists_of_solve {c : Cfg} {config : Config} {memory : σ} {solution : Solution σ φ}
    (h : a.Keeps (a.orient c.view) (a.orient c.view).topologicalOrder Legal) (ha : a.Plain)
    (hexit : Cfg.exit < c.size) (hsolve : a.solve c config memory = .ok solution) :
    ∃ outs, Legal outs ∧ ∀ n < c.size, ∃ x y, a.Computes (a.orient c.view) outs n x y ∧
      solution.flowIn? a.direction n = some x ∧ outs n = some y := by
  obtain ⟨last, hlast, rfl⟩ := solve_eq_ok_iff.1 hsolve
  obtain ⟨-, -, hfacts⟩ := run_settled ha hexit hlast
  have hstart : Legal (blank c.size memory : State σ φ).facts.out? := by
    rw [out?_blank]
    exact h.start
  rw [run_eq] at hlast
  refine ⟨last.facts.out?, h.iterate ha (a.mem_order_lt c) (fits_blank c.size memory) hstart hlast,
    fun n hn => ?_⟩
  obtain ⟨x, y, hcomputes, hin, hout⟩ := hfacts n hn
  exact ⟨x, y, hcomputes, (Solution.read_ofState a.direction c.size _ last hn).1.trans hin, hout⟩

end Keeps

end Analysis

namespace Copies

variable {c : Copies} {dest source : Variable} {i : Instruction} {code rest : List Instruction}

/-! ## Copies in force -/

/-- The instruction writes neither of the two variables. -/
def Spares (i : Instruction) (dest source : Variable) : Prop :=
  i.op.defined ≠ some dest ∧ i.op.defined ≠ some source

/-- Behind the code, `dest` still is the copy of `source` that one of the
instructions has made of it: none behind that one writes either of them. -/
def InForce (code : List Instruction) (dest source : Variable) : Prop :=
  ∃ front i back, code = front ++ i :: back ∧ i.op = .copy dest source ∧ dest ≠ source ∧
    ∀ j ∈ back, Spares j dest source

theorem source?_ended : (c.ended i).source? dest = some source ↔
    c.source? dest = some source ∧ Spares i dest source := by
  unfold ended Spares
  cases hdefined : i.op.defined with
  | none => simp
  | some x =>
      simp only [source?_kill, ne_eq, Option.some.injEq]
      rw [eq_comm (a := dest), eq_comm (a := source)]

/-- A copy behind an instruction is made by it, or was there before and is
spared. -/
theorem source?_apply_iff : (c.apply i).source? dest = some source ↔
    (i.op = .copy dest source ∧ dest ≠ source) ∨
      (c.source? dest = some source ∧ Spares i dest source) := by
  rw [← source?_ended, apply_eq]
  split
  · next x y hop =>
    have hdefined : i.op.defined = some x := by
      rw [hop]
      rfl
    split
    · next hxy =>
      refine ⟨.inr, fun h => h.resolve_left ?_⟩
      rintro ⟨hcopy, hne⟩
      cases hop.symm.trans hcopy
      exact hne hxy
    · next hxy =>
      rw [source?_begin]
      split
      · next hdest =>
        have hgone : (c.ended i).source? dest ≠ some source :=
          fun hkept => (ne_of_ended hdefined hkept).1 hdest
        simp only [hgone, or_false, hop, Operation.copy.injEq, Option.some.injEq]
        constructor
        · intro heq
          exact ⟨⟨hdest.symm, heq⟩, by rw [hdest, ← heq]; exact hxy⟩
        · exact fun h => h.1.2
      · next hdest =>
        refine ⟨.inr, fun h => h.resolve_left ?_⟩
        rintro ⟨hcopy, -⟩
        cases hop.symm.trans hcopy
        exact hdest rfl
  · next hcopy =>
    refine ⟨.inr, fun h => h.resolve_left ?_⟩
    exact fun hmade => hcopy dest source hmade.1

theorem not_inForce_nil : ¬ InForce [] dest source := by
  rintro ⟨front, i, back, hsplit, -⟩
  exact absurd hsplit.symm (by simp)

theorem inForce_cons : InForce (i :: code) dest source ↔
    InForce code dest source ∨
      (i.op = .copy dest source ∧ dest ≠ source) ∧ ∀ j ∈ code, Spares j dest source := by
  constructor
  · rintro ⟨front, j, back, hsplit, hop, hne, hback⟩
    cases front with
    | nil =>
        obtain ⟨rfl, rfl⟩ := List.cons.inj hsplit
        exact .inr ⟨⟨hop, hne⟩, hback⟩
    | cons k front =>
        obtain ⟨rfl, rfl⟩ := List.cons.inj hsplit
        exact .inl ⟨front, j, back, rfl, hop, hne, hback⟩
  · rintro (⟨front, j, back, rfl, hmade⟩ | ⟨⟨hop, hne⟩, hcode⟩)
    · exact ⟨i :: front, j, back, rfl, hmade⟩
    · exact ⟨[], i, code, rfl, hop, hne, hcode⟩

/-- **Copies behind code.**  A copy behind a piece of code is in force there,
or was known before it and is spared by all of its instructions. -/
theorem source?_foldl_apply_iff : (code.foldl Copies.apply c).source? dest = some source ↔
    InForce code dest source ∨
      (c.source? dest = some source ∧ ∀ i ∈ code, Spares i dest source) := by
  induction code generalizing c with
  | nil => simp [not_inForce_nil]
  | cons i code ih =>
      rw [List.foldl_cons, ih, source?_apply_iff, inForce_cons, List.forall_mem_cons]
      tauto

theorem source?_foldl_apply_empty :
    (code.foldl Copies.apply empty).source? dest = some source ↔ InForce code dest source := by
  rw [source?_foldl_apply_iff]
  exact or_iff_left fun h => nomatch h.1

/-- What is in force behind two pieces of code: the second keeps what the
first has left, apart from what it writes. -/
theorem inForce_append : InForce (code ++ rest) dest source ↔
    InForce rest dest source ∨
      (InForce code dest source ∧ ∀ i ∈ rest, Spares i dest source) := by
  rw [← source?_foldl_apply_empty, List.foldl_append, source?_foldl_apply_iff,
    source?_foldl_apply_empty]

instance (code : List Instruction) (dest source : Variable) :
    Decidable (InForce code dest source) :=
  decidable_of_iff _ source?_foldl_apply_empty

/-! ## Copies in force on every path -/

variable {g : Cfg} {n : NodeId} {x : Copies} {path : List NodeId} {outs : NodeId → Option Copies}

/-- On every path from the entry the copy is in force where the node
begins. -/
def Arrives (g : Cfg) (n : NodeId) (dest source : Variable) : Prop :=
  ∀ path, g.view.Path Cfg.entry n path → InForce (path.dropLast.flatMap g.codeOf) dest source

/-- On every path from the entry the copy is in force where the node ends. -/
def Leaves (g : Cfg) (n : NodeId) (dest source : Variable) : Prop :=
  ∀ path, g.view.Path Cfg.entry n path → InForce (path.flatMap g.codeOf) dest source

theorem not_arrives_entry : ¬ Arrives g Cfg.entry dest source :=
  fun h => not_inForce_nil (h [Cfg.entry] .start)

/-- A copy that arrives at a node leaves all of its predecessors. -/
theorem Arrives.leaves_pred (h : Arrives g n dest source) {p : NodeId}
    (hedge : n ∈ g.view.succ p) : Leaves g p dest source := by
  intro path hpath
  have hforce := h _ (hpath.step hedge)
  rwa [List.dropLast_concat] at hforce

/-- A copy that leaves a node is made by its block, or it arrives and the
block spares it. -/
theorem Leaves.inForce_or_arrives (h : Leaves g n dest source)
    (hreach : g.view.Reaches Cfg.entry n) :
    InForce (g.codeOf n) dest source ∨
      (Arrives g n dest source ∧ ∀ i ∈ g.codeOf n, Spares i dest source) := by
  by_cases hblock : InForce (g.codeOf n) dest source
  · exact .inl hblock
  have hpaths : ∀ path, g.view.Path Cfg.entry n path →
      InForce (path.dropLast.flatMap g.codeOf) dest source ∧
        ∀ i ∈ g.codeOf n, Spares i dest source := by
    intro path hpath
    have hforce := h path hpath
    rw [← hpath.dropLast_concat, List.flatMap_append, List.flatMap_singleton,
      inForce_append] at hforce
    exact hforce.resolve_left hblock
  obtain ⟨path, hpath⟩ := hreach
  exact .inr ⟨fun path hpath => (hpaths path hpath).1, (hpaths path hpath).2⟩

/-- The facts so far hold every copy that leaves their node. -/
def Ample (g : Cfg) (outs : NodeId → Option Copies) : Prop :=
  ∀ n c, outs n = some c → ∀ dest source, Leaves g n dest source → c.source? dest = some source

/-- Every copy that arrives flows in, once a predecessor has a fact. -/
theorem Ample.source?_inflow (houts : Ample g outs) (hg : g.Wired)
    (hknown : n ≠ Cfg.entry → ∃ p ∈ g.view.pred n, outs p ≠ none)
    (hx : (analysis g).inflow g.view outs n = .ok x) (harrives : Arrives g n dest source) :
    x.source? dest = some source := by
  rcases Analysis.inflow_cases hx with ⟨rfl, -⟩ | ⟨horigin, hnone, -⟩ | ⟨-, hsome, hjoin⟩
  · exact absurd harrives not_arrives_entry
  · obtain ⟨p, hp, hout⟩ := hknown horigin
    obtain ⟨c, hc⟩ := Option.ne_none_iff_exists'.1 hout
    exact absurd (List.mem_filterMap.2 ⟨p, hp, hc⟩) (by rw [hnone]; exact List.not_mem_nil)
  · rw [← Except.ok.inj hjoin, source?_join hsome]
    intro c hc
    obtain ⟨p, hp, hout⟩ := List.mem_filterMap.1 hc
    exact houts p c hout dest source (harrives.leaves_pred (hg.linked.mem_pred.1 hp))

/-- Bringing a node up to date at its turn keeps the facts ample.  What leaves
the node is made by its block or arrives and is spared, so the block makes it
of what flows in. -/
theorem keeps_ample (hg : g.Wired) (hreach : ∀ n < g.size, g.view.Reaches Cfg.entry n) :
    (analysis g).Keeps g.view g.view.topologicalOrder (Ample g) where
  start _ _ hnone := nomatch hnone
  step := by
    intro front back n outs x y hsplit hfront houts hcomputes m c hout dest source hleaves
    by_cases hmn : m = n
    · subst hmn
      rw [Function.update_self] at hout
      have hm : m < g.view.size := View.mem_topologicalOrder.1 (by rw [hsplit]; simp)
      have hknown : m ≠ Cfg.entry → ∃ p ∈ g.view.pred m, outs p ≠ none := by
        intro hentry
        rcases View.exists_leader hg.linked hg.entry_first hsplit
          ⟨Cfg.entry, List.mem_singleton_self _, hg.entry_lt, hreach m hm⟩ with
          hroot | ⟨p, hp, hpred, -⟩
        · exact absurd (List.mem_singleton.1 hroot) hentry
        · exact ⟨p, hpred, hfront p hp⟩
      have hy : (g.codeOf m).foldl Copies.apply x = y := Except.ok.inj (hcomputes.flow ())
      rw [← Option.some.inj hout, ← hy, source?_foldl_apply_iff]
      exact (hleaves.inForce_or_arrives (hreach m hm)).imp_right fun ⟨harrives, hspares⟩ =>
        ⟨houts.source?_inflow hg hknown hcomputes.inflow harrives, hspares⟩
    · rw [Function.update_of_ne hmn] at hout
      exact houts m c hout dest source hleaves

variable {s : Solution Unit Copies} {ins leaving : NodeId → Copies}

/-- The facts of a solution hold only what is in force on each path. -/
theorem Solved.inForce_of_path (h : Solved g s ins leaving) (hg : g.graph.Built)
    (hpath : g.view.Path Cfg.entry n path) (hsource : (ins n).source? dest = some source) :
    InForce (path.dropLast.flatMap g.codeOf) dest source := by
  have hrun : Execution (fun i c d => d = Copies.apply c i) (path.dropLast.flatMap g.codeOf) empty
      ((path.dropLast.flatMap g.codeOf).foldl Copies.apply empty) := Execution.foldl_iff.2 rfl
  have hthins := Cfg.arrival_induction (P := fun _ n c => c.Thins (ins n)) ?_ ?_ hpath hrun
  · exact source?_foldl_apply_empty.1 (hthins dest source hsource)
  · have hentry : ins Cfg.entry = empty := h.solves.boundary
    rw [hentry]
    exact .refl _
  · intro _ m n c d hthins hblock hedge
    have hlinked : g.view.Linked := hg.linked
    rw [Execution.foldl_iff.1 hblock]
    refine (hthins.foldl_apply _).trans ?_
    rw [← h.outs_eq (hlinked.source_lt hedge)]
    exact h.thins hg hedge

/-- **Copy propagation is precise** on graphs all of whose nodes can be
reached: a copy is known at the beginning of a node just if on every path from
the entry it has been made before and neither variable written since. -/
theorem solve_precise {method : Option MethodRef} {regions : List Region} {config config' : Config}
    (hbuild : Cfg.build method code regions config = .ok g)
    (hreach : ∀ n < g.size, g.view.Reaches Cfg.entry n)
    (h : (analysis g).solve g config' () = .ok s) (hn : n < g.size) :
    ∃ facts, s.input? n = some facts ∧ ∀ dest source, facts.source? dest = some source ↔
      ∀ path, g.view.Path Cfg.entry n path →
        InForce (path.dropLast.flatMap g.codeOf) dest source := by
  have hg := Cfg.build_wired hbuild
  obtain ⟨ins, leaving, hsolved⟩ := exists_solved hg.built hg.exit_lt h
  obtain ⟨outs, hample, hfacts⟩ :=
    (keeps_ample hg hreach).exists_of_solve (plain g) hg.exit_lt h
  obtain ⟨x, _, hcomputes, hin, -⟩ := hfacts n hn
  have hx : ins n = x := Option.some.inj ((hsolved.input n hn).symm.trans hin)
  refine ⟨ins n, hsolved.input n hn, fun dest source => ⟨?_, fun harrives => ?_⟩⟩
  · exact fun hsource path hpath => hsolved.inForce_of_path hg.built hpath hsource
  · have hknown : n ≠ Cfg.entry → ∃ p ∈ g.view.pred n, outs p ≠ none := by
      intro hentry
      obtain ⟨path, hpath⟩ := hreach n hn
      cases hpath with
      | start => exact absurd rfl hentry
      | @step p _ path _ hedge =>
          obtain ⟨_, y, -, -, hout⟩ := hfacts p (hg.linked.source_lt hedge)
          exact ⟨p, hg.linked.mem_pred.2 hedge, by simp [hout]⟩
    rw [hx]
    exact hample.source?_inflow hg hknown hcomputes.inflow harrives

/-- Behind the loop `c` is a copy of `b` however often the loop has gone
round.  At its head it is not, because of the path that comes from the
entry. -/
theorem solve_precise_chainLoop :
    (∀ n < chainLoopGraph.size, chainLoopGraph.view.Reaches Cfg.entry n) ∧
      ∃ s, (analysis chainLoopGraph).solve chainLoopGraph .default () = .ok s ∧
        (∀ path, chainLoopGraph.view.Path Cfg.entry 4 path →
          InForce (path.dropLast.flatMap chainLoopGraph.codeOf) ⟨"c", none, .local⟩
            ⟨"b", none, .local⟩) ∧
        ∃ facts, s.input? 3 = some facts ∧
          facts.source? ⟨"c", none, .local⟩ ≠ some ⟨"b", none, .local⟩ := by
  have hbuild : Cfg.build none chainLoop [] .default = .ok chainLoopGraph :=
    Cfg.build_eq_ok_iff.2 ⟨by decide, rfl⟩
  have hreach : ∀ n < chainLoopGraph.size, chainLoopGraph.view.Reaches Cfg.entry n := by
    intro n hn
    have hlist : ∀ n < chainLoopGraph.size,
        n ∈ chainLoopGraph.view.reversePostorder [Cfg.entry] := by decide +kernel
    obtain ⟨r, hr, -, hreach⟩ :=
      (View.mem_reversePostorder (Cfg.build_wired hbuild).linked).1 (hlist n hn)
    exact List.mem_singleton.1 hr ▸ hreach
  have hresult : ((analysis chainLoopGraph).solve chainLoopGraph .default ()).toOption.any
      (fun s => (s.input? 4).any fun facts =>
        facts.source? ⟨"c", none, .local⟩ == some ⟨"b", none, .local⟩) = true := by
    decide +kernel
  obtain ⟨s, hs⟩ : ∃ s, (analysis chainLoopGraph).solve chainLoopGraph .default () = .ok s :=
    exists_eq_ok (by decide +kernel)
  rw [hs] at hresult
  simp only [Except.toOption, Option.any_some, Option.any_eq_true, beq_iff_eq] at hresult
  obtain ⟨facts, hinput, hsource⟩ := hresult
  obtain ⟨facts', hinput', hbehind⟩ := solve_precise hbuild hreach hs (n := 4) (by decide +kernel)
  rw [hinput] at hinput'
  cases hinput'
  obtain ⟨head, hhead, hcopies⟩ := solve_precise hbuild hreach hs (n := 3) (by decide +kernel)
  refine ⟨hreach, s, hs, (hbehind _ _).1 hsource, head, hhead, fun hknown => ?_⟩
  have hpath : chainLoopGraph.view.Path Cfg.entry 3 [0, 2, 3] :=
    .step (.step .start (by decide)) (by decide)
  exact absurd ((hcopies _ _).1 hknown _ hpath) (by decide +kernel)

end Copies

end MethodFlow
