import MethodFlow.Proofs.Cfg.Executions
import MethodFlow.Proofs.Flow.CopyConvergence

/-!
# Copies hold along every path

Copy propagation is measured against executions in which a copy moves a value
and every other definition writes any value at all.  A fact holds in a state
when each of its copies connects two variables with the same value.  Writing a
variable ends the copies that mention it, so the fact behind an instruction
holds in the state behind it, and where paths meet a fact can only lose
copies.  Along a path the facts of a solution therefore hold at the beginning
of each node.

Following copies from a variable keeps the value at every step.  It also comes
to an end: a copy is begun right after all copies that mention its destination
have ended, so the copies of a fact can be ranked (`Ranked`), and the rank
falls along a chain.

## Main results

* `Copies.Holds.apply`, `Copies.Holds.block`: what one instruction and a block
  keep.
* `Copies.Acyclic.apply`, `Copies.Acyclic.source?_resolve`: chains of copies
  end, and `resolve` finds their end.
* `Copies.solve_sound`: along every path the facts of a solution hold, and
  resolved variables have the values of the variables they stand for.
-/

namespace MethodFlow

namespace Copies

variable {V : Type} {c d : Copies} {x y z : Variable} {i : Instruction}
  {code : List Instruction} {env env' : Variable → V}

/-! ## Executions and facts that hold -/

/-- What an instruction may do to the values of the variables: a copy moves
the value of its source, any other definition writes some value, and nothing
else is written. -/
def Moves (i : Instruction) (env env' : Variable → V) : Prop :=
  match i.op with
  | .copy dest source => env' = Function.update env dest (env source)
  | op =>
    match op.defined with
    | some dest => ∃ value, env' = Function.update env dest value
    | none => env' = env

/-- Each copy connects two variables with the same value. -/
def Holds (c : Copies) (env : Variable → V) : Prop :=
  ∀ x y, c.source? x = some y → env x = env y

theorem Holds.empty (env : Variable → V) : Copies.empty.Holds env :=
  fun _ _ h => nomatch h

theorem Holds.of_thins (h : c.Holds env) (hthins : c.Thins d) : d.Holds env :=
  fun x y hxy => h x y (hthins x y hxy)

/-- Without the copies of a variable a fact holds whatever is written to the
variable. -/
theorem Holds.kill (h : c.Holds env) (z : Variable) (value : V) :
    (c.kill z).Holds (Function.update env z value) := by
  intro x y hxy
  obtain ⟨hsource, hx, hy⟩ := source?_kill.1 hxy
  rw [Function.update_of_ne hx, Function.update_of_ne hy]
  exact h x y hsource

theorem source?_begin : source? ⟨c.sources.insert x y⟩ z =
    if z = x then some y else c.source? z :=
  SortedMap.get?_insert c.sources x y z

/-- A new copy holds when its two variables have the same value. -/
theorem Holds.begin (h : c.Holds env) (hxy : env x = env y) :
    Holds ⟨c.sources.insert x y⟩ env := by
  intro z w hzw
  rw [source?_begin] at hzw
  split at hzw
  · next hz =>
    rw [hz, ← Option.some.inj hzw]
    exact hxy
  · exact h z w hzw

theorem Holds.copy {dest source : Variable} (h : c.Holds env) (hop : i.op = .copy dest source) :
    (c.apply i).Holds (Function.update env dest (env source)) := by
  have hended : (c.ended i).Holds (Function.update env dest (env source)) := by
    rw [ended, hop]
    exact h.kill dest _
  rw [apply_eq, hop]
  dsimp only
  split
  · exact hended
  · next hne =>
    refine hended.begin ?_
    rw [Function.update_self, Function.update_of_ne (Ne.symm hne)]

/-- The fact behind an instruction holds in the state behind it. -/
theorem Holds.apply (h : c.Holds env) (hmoves : Moves i env env') : (c.apply i).Holds env' := by
  unfold Moves at hmoves
  split at hmoves
  · next dest source hop =>
    rw [hmoves]
    exact h.copy hop
  · next hcopy =>
    have happly : c.apply i = c.ended i := by
      rw [apply_eq]
      split
      · next dest source hop => exact absurd hop (hcopy dest source)
      · rfl
    rw [happly, ended]
    cases hdefined : i.op.defined with
    | some dest =>
        rw [hdefined] at hmoves
        obtain ⟨value, rfl⟩ := hmoves
        exact h.kill dest value
    | none =>
        rw [hdefined] at hmoves
        rw [hmoves]
        exact h

/-- A block keeps facts that hold. -/
theorem Holds.block (h : c.Holds env) (hrun : Execution Moves code env env') :
    (code.foldl Copies.apply c).Holds env' := by
  induction hrun generalizing c with
  | nil => exact h
  | cons hstep _ ih => exact ih (h.apply hstep)

/-! ## Chains of copies -/

/-- The rank falls from the destination of each copy to its source. -/
def Ranked (c : Copies) (rank : Variable → Nat) : Prop :=
  ∀ x y, c.source? x = some y → rank y < rank x

/-- Copies do not lead in a circle. -/
def Acyclic (c : Copies) : Prop := ∃ rank, c.Ranked rank

theorem Acyclic.empty : Copies.empty.Acyclic := ⟨fun _ => 0, fun _ _ h => nomatch h⟩

theorem Acyclic.of_thins (h : c.Acyclic) (hthins : c.Thins d) : d.Acyclic := by
  obtain ⟨rank, hrank⟩ := h
  exact ⟨rank, fun x y hxy => hrank x y (hthins x y hxy)⟩

theorem thins_kill (c : Copies) (z : Variable) : c.Thins (c.kill z) :=
  fun _ _ h => (source?_kill.1 h).1

theorem thins_ended (c : Copies) (i : Instruction) : c.Thins (c.ended i) := by
  unfold ended
  split
  · exact thins_kill c _
  · exact .refl c

/-- No copy that is left mentions the variable that has been written. -/
theorem ne_of_ended {dest : Variable} (hdefined : i.op.defined = some dest)
    (h : (c.ended i).source? x = some y) : x ≠ dest ∧ y ≠ dest := by
  rw [ended, hdefined] at h
  exact (source?_kill.1 h).2

/-- A new copy leads to no circle when no other copy mentions its
destination. -/
theorem Acyclic.begin (h : c.Acyclic) (hne : x ≠ y)
    (hnew : ∀ z w, c.source? z = some w → z ≠ x ∧ w ≠ x) :
    Acyclic ⟨c.sources.insert x y⟩ := by
  obtain ⟨rank, hrank⟩ := h
  refine ⟨Function.update rank x (rank y + 1), fun z w hzw => ?_⟩
  rw [source?_begin] at hzw
  split at hzw
  · next hz =>
    rw [hz, ← Option.some.inj hzw, Function.update_self, Function.update_of_ne (Ne.symm hne)]
    omega
  · obtain ⟨hz, hw⟩ := hnew z w hzw
    rw [Function.update_of_ne hz, Function.update_of_ne hw]
    exact hrank z w hzw

theorem Acyclic.apply (h : c.Acyclic) (i : Instruction) : (c.apply i).Acyclic := by
  have hended := h.of_thins (thins_ended c i)
  rw [apply_eq]
  split
  · next dest source hop =>
    split
    · exact hended
    · next hne => exact hended.begin hne fun _ _ => ne_of_ended (by rw [hop]; rfl)
  · exact hended

theorem Acyclic.block (h : c.Acyclic) (code : List Instruction) :
    (code.foldl Copies.apply c).Acyclic := by
  induction code generalizing c with
  | nil => exact h
  | cons i code ih => exact ih (h.apply i)

/-- Following copies keeps the value, however far one goes. -/
theorem Holds.follow (h : c.Holds env) (steps : Nat) (x : Variable) :
    env (c.follow steps x) = env x := by
  induction steps generalizing x with
  | zero => rfl
  | succ steps ih =>
      rw [Copies.follow]
      split
      · next source hsource => rw [ih source, h x source hsource]
      · rfl

/-- The destinations whose rank is not above that of `x`. -/
private def below (c : Copies) (rank : Variable → Nat) (x : Variable) : List Variable :=
  c.sources.keys.filter fun z => rank z ≤ rank x

/-- Along a copy there are fewer and fewer of them. -/
private theorem Ranked.below_lt {rank : Variable → Nat} (h : c.Ranked rank)
    (hxy : c.source? x = some y) : (c.below rank y).length < (c.below rank x).length := by
  have hlt := h x y hxy
  have hsub : (c.below rank y).Sublist (c.below rank x) := by
    refine List.monotone_filter_right _ fun z hz => ?_
    simp only [decide_eq_true_eq] at hz ⊢
    omega
  refine Nat.lt_of_le_of_ne hsub.length_le fun hlength => ?_
  have hx : x ∈ c.below rank x :=
    List.mem_filter.2 ⟨SortedMap.mem_keys_iff.2 ⟨y, hxy⟩, by simp⟩
  rw [← hsub.eq_of_length hlength] at hx
  have := (List.mem_filter.1 hx).2
  simp only [decide_eq_true_eq] at this
  omega

private theorem Ranked.source?_follow {rank : Variable → Nat} (h : c.Ranked rank) (steps : Nat)
    (x : Variable) (hsteps : (c.below rank x).length ≤ steps) :
    c.source? (c.follow steps x) = none := by
  induction steps generalizing x with
  | zero =>
      cases hx : c.source? x with
      | none => exact hx
      | some y =>
          have := h.below_lt hx
          omega
  | succ steps ih =>
      rw [follow]
      split
      · next y hx =>
        refine ih y ?_
        have := h.below_lt hx
        omega
      · next hx => exact hx

/-- A resolved variable is the end of its chain: it has not been copied from
another one. -/
theorem Acyclic.source?_resolve (h : c.Acyclic) (x : Variable) :
    c.source? (c.resolve x) = none := by
  obtain ⟨rank, hrank⟩ := h
  refine hrank.source?_follow _ x ?_
  have hle : (c.below rank x).length ≤ c.sources.keys.length := List.length_filter_le _ _
  rwa [SortedMap.keys, List.length_map] at hle

/-! ## Solutions -/

variable {g : Cfg} {config : Config} {s : Solution Unit Copies} {n : NodeId}
  {path : List NodeId} {ins outs : NodeId → Copies}

/-- The facts of a solution and the equations that they solve. -/
structure Solved (g : Cfg) (s : Solution Unit Copies) (ins outs : NodeId → Copies) : Prop where
  solves : (analysis g).Solves g.view ins outs
  input : ∀ n < g.size, s.input? n = some (ins n)
  output : ∀ n < g.size, s.output? n = some (outs n)

theorem exists_solved (hg : g.graph.Built) (hexit : Cfg.exit < g.size)
    (h : (analysis g).solve g config () = .ok s) : ∃ ins outs, Solved g s ins outs := by
  obtain ⟨ins, outs, hsolves, hfacts⟩ :=
    Analysis.exists_solves_of_solve (plain g) hg hexit h
  exact ⟨ins, outs, hsolves, fun n hn => (hfacts n hn).1, fun n hn => (hfacts n hn).2⟩

namespace Solved

/-- What flows out of a node is what its block makes of what flows in. -/
theorem outs_eq (h : Solved g s ins outs) (hn : n < g.size) :
    outs n = (g.codeOf n).foldl Copies.apply (ins n) :=
  (Except.ok.inj (h.solves.transfer n hn ())).symm

/-- Along an edge a fact only loses copies. -/
theorem thins (h : Solved g s ins outs) (hg : g.graph.Built) {m : NodeId}
    (hedge : n ∈ g.view.succ m) : (outs m).Thins (ins n) := by
  have hlinked : g.view.Linked := hg.linked
  have hpred : m ∈ g.view.pred n := hlinked.mem_pred.2 hedge
  have hn : n < g.size := hlinked.target_lt hedge
  intro x y hxy
  by_cases horigin : n = (analysis g).origin
  · rw [horigin, h.solves.boundary] at hxy
    exact nomatch hxy
  · have hjoin := Except.ok.inj
      (h.solves.join n hn horigin (List.ne_nil_of_mem hpred))
    have hne : (g.view.pred n).map outs ≠ [] := by
      simpa using List.ne_nil_of_mem hpred
    rw [← hjoin] at hxy
    exact (source?_join hne).1 hxy (outs m) (List.mem_map_of_mem hpred)

/-- Along a path, the fact at the beginning of a node holds and has no
circles. -/
theorem holds_path (h : Solved g s ins outs) (hg : g.graph.Built)
    (hpath : g.view.Path Cfg.entry n path) {start : Variable → V}
    (hrun : Execution Moves (path.dropLast.flatMap g.codeOf) start env) :
    (ins n).Holds env ∧ (ins n).Acyclic := by
  refine Cfg.arrival_induction
    (P := fun _ n env => (ins n).Holds env ∧ (ins n).Acyclic) ?_ ?_ hpath hrun
  · have hentry : ins Cfg.entry = empty := h.solves.boundary
    rw [hentry]
    exact ⟨.empty _, .empty⟩
  · rintro - m n env env' ⟨hholds, hacyclic⟩ hblock hedge
    have hlinked : g.view.Linked := hg.linked
    have houts := h.outs_eq (hlinked.source_lt hedge)
    have hthins := h.thins hg hedge
    rw [houts] at hthins
    exact ⟨(hholds.block hblock).of_thins hthins, (hacyclic.block _).of_thins hthins⟩

end Solved

/-- **Copies hold along every path.**  Whatever an execution along a path from
the entry has done, at the beginning of the last node each copy of the fact
there connects two variables with the same value.  At its end every variable
has the value of the variable that it resolves to, which is the end of its
chain of copies. -/
theorem solve_sound (hg : g.graph.Built) (hexit : Cfg.exit < g.size)
    (h : (analysis g).solve g config () = .ok s) (hpath : g.view.Path Cfg.entry n path)
    {start : Variable → V}
    (hrun : Execution Moves (path.dropLast.flatMap g.codeOf) start env) :
    (∃ facts, s.input? n = some facts ∧
        ∀ dest source, facts.source? dest = some source → env dest = env source) ∧
      ∃ facts, s.output? n = some facts ∧
        ∀ env', Execution Moves (g.codeOf n) env env' → ∀ x,
          env' (s.resolve n x) = env' x ∧ facts.source? (s.resolve n x) = none := by
  have hlinked : g.view.Linked := hg.linked
  have hn : n < g.size :=
    View.Reaches.lt_size hlinked ⟨path, hpath⟩ (Nat.lt_trans (by decide) hexit)
  obtain ⟨ins, outs, hsolved⟩ := exists_solved hg hexit h
  obtain ⟨hholds, hacyclic⟩ := hsolved.holds_path hg hpath hrun
  refine ⟨⟨ins n, hsolved.input n hn, hholds⟩, outs n, hsolved.output n hn, ?_⟩
  intro env' hblock x
  have hresolve : s.resolve n x = (outs n).resolve x := by
    rw [Solution.resolve, hsolved.output n hn]
  rw [hresolve, hsolved.outs_eq hn]
  exact ⟨(hholds.block hblock).follow _ x, (hacyclic.block _).source?_resolve x⟩

/-- A loop that copies `a` on to `b` and `b` on to `c`. -/
def chainLoop : List Instruction :=
  [⟨0, .loadConstant ⟨"a", none, .local⟩⟩,
    ⟨1, .copy ⟨"b", none, .local⟩ ⟨"a", none, .local⟩⟩,
    ⟨2, .copy ⟨"c", none, .local⟩ ⟨"b", none, .local⟩⟩, ⟨3, .branch .conditional 1⟩,
    ⟨4, .return (some ⟨"c", none, .local⟩)⟩]

/-- The graph of the loop. -/
def chainLoopGraph : Cfg := ⟨none, (Cfg.Layout.of chainLoop []).graph .default⟩

/-- After two rounds of the loop `c` is known to be a copy of `b` and resolves
to `a`, and all three have the value that was written to `a`. -/
theorem solve_sound_chainLoop :
    ∃ s env, (analysis chainLoopGraph).solve chainLoopGraph .default () = .ok s ∧
      Execution Moves ([0, 2, 3, 3].flatMap chainLoopGraph.codeOf) (fun _ => 0) env ∧
      env ⟨"a", none, .local⟩ = 7 ∧
      (∃ facts, s.input? 4 = some facts ∧
        facts.source? ⟨"c", none, .local⟩ = some ⟨"b", none, .local⟩ ∧
        env ⟨"c", none, .local⟩ = env ⟨"b", none, .local⟩) ∧
      s.resolve 4 ⟨"c", none, .local⟩ = ⟨"a", none, .local⟩ ∧
      env ⟨"a", none, .local⟩ = env ⟨"c", none, .local⟩ := by
  have hwired : chainLoopGraph.Wired := Cfg.Layout.wired rfl
  have hpath : chainLoopGraph.view.Path Cfg.entry 4 [0, 2, 3, 3, 4] :=
    .step (.step (.step (.step .start (by decide)) (by decide)) (by decide)) (by decide)
  have hresult : ((analysis chainLoopGraph).solve chainLoopGraph .default ()).toOption.any
      (fun s => decide (s.resolve 4 ⟨"c", none, .local⟩ = ⟨"a", none, .local⟩) &&
        (s.input? 4).any fun facts =>
          facts.source? ⟨"c", none, .local⟩ == some ⟨"b", none, .local⟩) = true := by
    decide +kernel
  obtain ⟨s, hs⟩ : ∃ s, (analysis chainLoopGraph).solve chainLoopGraph .default () = .ok s :=
    exists_eq_ok (by decide +kernel)
  rw [hs] at hresult
  simp only [Except.toOption, Option.any_some, Bool.and_eq_true, decide_eq_true_eq,
    Option.any_eq_true, beq_iff_eq] at hresult
  obtain ⟨hresolve, facts, hinput, hsource⟩ := hresult
  obtain ⟨env, hrun, hvalue⟩ : ∃ env : Variable → Nat,
      Execution Moves ([0, 2, 3, 3].flatMap chainLoopGraph.codeOf) (fun _ => 0) env ∧
        env ⟨"a", none, .local⟩ = 7 := by
    refine ⟨_, .cons ⟨7, rfl⟩ (.cons rfl (.cons rfl (.cons rfl (.cons rfl (.cons rfl
      (.cons rfl .nil)))))), ?_⟩
    decide
  obtain ⟨⟨facts', hinput', hcopies⟩, _, _, hvalues⟩ :=
    solve_sound hwired.built hwired.exit_lt hs hpath hrun
  rw [hinput] at hinput'
  cases hinput'
  refine ⟨s, env, hs, hrun, hvalue, ⟨facts, hinput, hsource, hcopies _ _ hsource⟩, hresolve, ?_⟩
  have hvalue := (hvalues _ (.cons rfl .nil) ⟨"c", none, .local⟩).1
  rw [hresolve] at hvalue
  exact hvalue

end Copies

end MethodFlow
