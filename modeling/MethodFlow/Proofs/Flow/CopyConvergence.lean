import MethodFlow.Flow.Copies
import MethodFlow.Proofs.Flow.Ascent

/-!
# Where copy propagation settles

Where paths meet, a copy survives only if all of them made it, so facts can
only lose copies and a run can only end.  That argument needs a first value
that holds at least as many copies as any later one.  A node has it once one
of its predecessors has a fact, and in the topological order every node
behind a source is in this position when its turn comes.

The nodes on unreachable cycles are not: no source leads to them, so the
search that orders them has to begin somewhere on the cycle, with a node that
starts from no copies at all while its predecessors, not visited yet, will
have some.  The facts of such a cycle can chase each other forever
(`Copies.solve_unsettled_twistedLoop`).  They settle when there is nothing to
chase.

## Main results

* `Copies.Thins.foldl_apply`, `Copies.source?_join`: transfers keep the order
  of facts, and joins are intersections.
* `Copies.solve_converges`: the analysis settles on every graph that begins
  no copies on unreachable cycles.
-/

namespace MethodFlow

/-- No source leads to the node: it lies on a cycle that nothing enters, or
behind one. -/
def View.Stranded (v : View) (n : NodeId) : Prop := ¬ v.ReachedFrom v.sources n

namespace View

variable {v : View} {n p : NodeId}

theorem mem_sources : n ∈ v.sources ↔ n < v.size ∧ v.pred n = [] := by
  simp [sources, nodes]

/-- What leads to a stranded node is stranded too. -/
theorem Stranded.of_pred (hv : v.Linked) (h : v.Stranded n) (hp : p ∈ v.pred n) :
    v.Stranded p := by
  rintro ⟨r, hr, hsize, hreach⟩
  exact h ⟨r, hr, hsize, hreach.step (hv.mem_pred.1 hp)⟩

end View

namespace Copies

variable {c d e : Copies} {x y z : Variable} {i : Instruction} {code : List Instruction}

/-! ## The order of facts -/

/-- The second fact has lost copies of the first, or none. -/
def Thins (c d : Copies) : Prop := ∀ x y, d.source? x = some y → c.source? x = some y

theorem Thins.refl (c : Copies) : c.Thins c := fun _ _ h => h

theorem Thins.trans (hcd : c.Thins d) (hde : d.Thins e) : c.Thins e :=
  fun x y h => hcd x y (hde x y h)

theorem eq_of_source? (h : ∀ x, c.source? x = d.source? x) : c = d := by
  cases c
  cases d
  exact congrArg Copies.mk (SortedMap.ext_get? h)

theorem Thins.eq_empty (h : empty.Thins c) : c = empty := by
  refine eq_of_source? fun x => ?_
  cases hx : c.source? x with
  | none => rfl
  | some y => exact absurd (h x y hx) (by simp [source?, empty])

/-- Losing copies means having fewer. -/
theorem Thins.size_lt (h : c.Thins d) (hne : c ≠ d) : d.size < c.size := by
  have hsubset : d.sources.entries ⊆ c.sources.entries := by
    rintro ⟨x, y⟩ hentry
    exact SortedMap.get?_eq_some_iff.1 (h x y (SortedMap.get?_eq_some_iff.2 hentry))
  have hnodup : d.sources.entries.Nodup :=
    d.sources.ascending.imp fun hlt heq => by simp [heq, Ordered.before_irrefl] at hlt
  have hsubperm := List.subperm_of_subset hnodup hsubset
  refine Nat.lt_of_le_of_ne hsubperm.length_le fun hlength => hne (eq_of_source? fun x => ?_)
  have hperm := hsubperm.perm_of_length_le (Nat.le_of_eq hlength.symm)
  refine Option.ext fun y => ?_
  rw [source?, source?, SortedMap.get?_eq_some_iff, SortedMap.get?_eq_some_iff]
  exact hperm.symm.mem_iff

/-! ## Transfers -/

theorem source?_kill : (c.kill z).source? x = some y ↔
    c.source? x = some y ∧ x ≠ z ∧ y ≠ z := by
  rw [source?, kill, SortedMap.get?_filter, Option.filter_eq_some_iff]
  simp [source?]

theorem Thins.kill (h : c.Thins d) (z : Variable) : (c.kill z).Thins (d.kill z) := by
  intro x y hx
  rw [source?_kill] at hx ⊢
  exact ⟨h x y hx.1, hx.2⟩

private theorem Thins.insert (h : c.Thins d) (dest source : Variable) :
    Thins ⟨c.sources.insert dest source⟩ ⟨d.sources.insert dest source⟩ := by
  intro x y hx
  simp only [source?, SortedMap.get?_insert] at hx ⊢
  split
  · next heq => rwa [if_pos heq] at hx
  · next hne =>
    rw [if_neg hne] at hx
    exact h x y hx

/-- The copies that are left when the variable that an instruction writes has
lost its own. -/
def ended (c : Copies) (i : Instruction) : Copies :=
  match i.op.defined with
  | some dest => c.kill dest
  | none => c

theorem apply_eq (c : Copies) (i : Instruction) :
    c.apply i = match i.op with
      | .copy dest source =>
          if dest = source then c.ended i else ⟨(c.ended i).sources.insert dest source⟩
      | _ => c.ended i := rfl

theorem Thins.ended (h : c.Thins d) (i : Instruction) : (c.ended i).Thins (d.ended i) := by
  unfold Copies.ended
  split
  · exact h.kill _
  · exact h

theorem Thins.apply (h : c.Thins d) (i : Instruction) : (c.apply i).Thins (d.apply i) := by
  rw [apply_eq, apply_eq]
  split
  · split
    · exact h.ended i
    · exact (h.ended i).insert _ _
  · exact h.ended i

/-- A block keeps the order of the facts that flow in. -/
theorem Thins.foldl_apply (h : c.Thins d) (code : List Instruction) :
    (code.foldl Copies.apply c).Thins (code.foldl Copies.apply d) := by
  induction code generalizing c d with
  | nil => exact h
  | cons i code ih => exact ih (h.apply i)

/-- The instruction copies one variable to another. -/
def beginsCopy (i : Instruction) : Bool :=
  match i.op with
  | .copy dest source => dest ≠ source
  | _ => false

theorem apply_empty (h : beginsCopy i = false) : empty.apply i = empty := by
  have hended : empty.ended i = empty := by
    unfold ended
    split
    · rfl
    · rfl
  rw [apply_eq, hended]
  split
  · next dest source hop => exact if_pos (by simpa [beginsCopy, hop] using h)
  · rfl

theorem foldl_apply_empty (h : ∀ i ∈ code, beginsCopy i = false) :
    code.foldl Copies.apply empty = empty := by
  induction code with
  | nil => rfl
  | cons i code ih =>
      rw [List.foldl_cons, apply_empty (h i List.mem_cons_self)]
      exact ih fun j hj => h j (List.mem_cons_of_mem _ hj)

/-! ## Joins -/

theorem source?_meet : (c.meet d).source? x = some y ↔
    c.source? x = some y ∧ d.source? x = some y := by
  rw [source?, meet, SortedMap.get?_filter, Option.filter_eq_some_iff]
  simp [source?]

/-- The join holds the copies that all facts hold. -/
theorem source?_join {facts : List Copies} (hne : facts ≠ []) :
    (join facts).source? x = some y ↔ ∀ c ∈ facts, c.source? x = some y := by
  obtain ⟨first, rest, rfl⟩ := List.exists_cons_of_ne_nil hne
  rw [join, List.forall_mem_cons]
  clear hne
  induction rest generalizing first with
  | nil => simp
  | cons d rest ih =>
      rw [List.foldl_cons, ih, source?_meet, List.forall_mem_cons, and_assoc]

theorem plain (g : Cfg) : (analysis g).Plain where
  stateless _ _ _ _ := rfl
  same_iff _ _ := beq_iff_eq

/-- Facts rise by losing copies, and joins are the least facts above. -/
theorem joinsLeast (g : Cfg) : (analysis g).JoinsLeast Thins := by
  intro facts hne
  refine ⟨join facts, rfl, fun c hc x y hx => (source?_join hne).1 hx c hc, ?_⟩
  intro d hd x y hx
  exact (source?_join hne).2 fun c hc => hd c hc x y hx

/-! ## Stranded nodes -/

/-- Nodes that no source leads to begin no copies. -/
def NoStrandedCopies (g : Cfg) : Prop :=
  ∀ n < g.size, g.view.Stranded n → ∀ i ∈ g.codeOf n, beginsCopy i = false

/-- Stranded nodes know of no copies. -/
def StrandedEmpty (g : Cfg) (outs : NodeId → Option Copies) : Prop :=
  ∀ n c, g.view.Stranded n → outs n = some c → c = empty

variable {g : Cfg} {n : NodeId} {outs outs' : NodeId → Option Copies}

private theorem inflow_stranded (hg : g.Wired) (houts : StrandedEmpty g outs)
    (hn : g.view.Stranded n) (hc : (analysis g).inflow g.view outs n = .ok c) : c = empty := by
  rcases Analysis.inflow_cases hc with ⟨-, rfl⟩ | ⟨-, -, rfl⟩ | ⟨-, hknown, hjoin⟩
  · rfl
  · rfl
  · obtain ⟨d, hd⟩ := List.exists_mem_of_ne_nil _ hknown
    obtain ⟨p, hp, hpd⟩ := List.mem_filterMap.1 hd
    have hempty := houts p d (hn.of_pred hg.linked hp) hpd
    rw [← Except.ok.inj hjoin]
    refine Thins.eq_empty fun x y hx => ?_
    rw [← hempty]
    exact (source?_join hknown).1 hx d hd

/-- A node is ready once a predecessor has a fact, unless it has none or is
stranded. -/
def Ready (g : Cfg) (outs : NodeId → Option Copies) (n : NodeId) : Prop :=
  g.view.Stranded n ∨ g.view.pred n = [] ∨ ∃ p ∈ g.view.pred n, outs p ≠ none

private theorem ready_of_order (hg : g.Wired) {front back : List NodeId}
    (horder : g.view.topologicalOrder = front ++ n :: back)
    (hfront : ∀ m ∈ front, outs m ≠ none) : Ready g outs n := by
  by_cases hn : g.view.Stranded n
  · exact .inl hn
  have hreached := not_not.1 hn
  rcases View.exists_leader hg.linked (List.prefix_append _ _) horder hreached with
    hsource | ⟨p, hp, hpred, -⟩
  · exact .inr (.inl (View.mem_sources.1 hsource).2)
  · exact .inr (.inr ⟨p, hpred, hfront p hp⟩)

/-- Copy propagation rises: facts lose copies, stranded nodes stay without
any, and every other node has seen a predecessor before its first fact. -/
theorem ascent (hg : g.Wired) (hstranded : NoStrandedCopies g) :
    (analysis g).Ascent g.view Thins Copies.size (StrandedEmpty g) (Ready g) where
  refl := Thins.refl
  trans _ _ _ := Thins.trans
  legal_start _ _ _ hnone := nomatch hnone
  ready_of_order := ready_of_order hg
  ready_mono := by
    rintro outs outs' n hrises (hn | hn | ⟨p, hp, hknown⟩)
    · exact .inl hn
    · exact .inr (.inl hn)
    · obtain ⟨c, hc⟩ := Option.ne_none_iff_exists'.1 hknown
      obtain ⟨d, hd, -⟩ := hrises p c hc
      exact .inr (.inr ⟨p, hp, by simp [hd]⟩)
  advance := by
    intro outs n houts hn _
    obtain ⟨c, hc⟩ := Analysis.exists_inflow (joinsLeast g) g.view outs n
    refine ⟨c, _, ⟨hc, fun _ => rfl⟩, fun m d hm hd => ?_⟩
    by_cases hmn : m = n
    · subst hmn
      rw [Function.update_self] at hd
      rw [← Option.some.inj hd, inflow_stranded hg houts hm hc]
      exact foldl_apply_empty (hstranded m hn hm)
    · rw [Function.update_of_ne hmn] at hd
      exact houts m d hm hd
  mono := by
    intro outs outs' n c c' d d' houts houts' hrises _ hready hcomputes hcomputes'
    have hthins : c.Thins c' := by
      -- The initial fact is used on both sides or on neither, so that what flows
      -- in is compared with its like.
      rcases hready with hn | hn | ⟨p, hp, hknown⟩
      · rw [inflow_stranded hg houts hn hcomputes.inflow,
          inflow_stranded hg houts' hn hcomputes'.inflow]
        exact .refl _
      · refine Analysis.inflow_mono Thins.refl (fun _ _ _ => Thins.trans) (joinsLeast g) hrises
          (fun _ _ => .inl ?_) hcomputes.inflow hcomputes'.inflow
        rw [hn]
        rfl
      · refine Analysis.inflow_mono Thins.refl (fun _ _ _ => Thins.trans) (joinsLeast g) hrises
          (fun _ hnone => absurd hnone ?_) hcomputes.inflow hcomputes'.inflow
        obtain ⟨e, he⟩ := Option.ne_none_iff_exists'.1 hknown
        exact List.ne_nil_of_mem (List.mem_filterMap.2 ⟨p, hp, he⟩)
    rw [← Except.ok.inj (hcomputes.flow ()), ← Except.ok.inj (hcomputes'.flow ())]
    exact hthins.foldl_apply _
  rank_lt := by
    intro outs n c d _ _ _ hthins hne
    exact hthins.size_lt hne

/-- **Copy propagation settles** on every graph whose unreachable cycles
begin no copies: some number of passes is enough, however many more are
allowed. -/
theorem solve_converges {method : Option MethodRef} {code : List Instruction}
    {regions : List Region} {config : Config} (h : Cfg.build method code regions config = .ok g)
    (hstranded : NoStrandedCopies g) :
    ∃ bound, ∀ config' : Config, bound ≤ config'.maxIterations →
      ∃ s, (analysis g).solve g config' () = .ok s :=
  (ascent (Cfg.build_wired h) hstranded).exists_bound (plain g) ()

/-- A loop that copies, and behind the return a cycle that does not. -/
def deadLoop : List Instruction :=
  [⟨0, .copy ⟨"y", none, .local⟩ ⟨"x", none, .local⟩⟩, ⟨1, .branch .conditional 0⟩,
    ⟨2, .return none⟩, ⟨3, .nop⟩, ⟨4, .branch .unconditional 3⟩]

/-- The graph of the two loops. -/
def deadLoopGraph : Cfg := ⟨none, (Cfg.Layout.of deadLoop []).graph .default⟩

/-- The unreachable cycle of the two loops is stranded and begins no
copies. -/
theorem solve_converges_deadLoop :
    (∃ n < deadLoopGraph.size, deadLoopGraph.view.Stranded n ∧ deadLoopGraph.codeOf n ≠ []) ∧
      NoStrandedCopies deadLoopGraph ∧
      ∃ bound, ∀ config' : Config, bound ≤ config'.maxIterations →
        ∃ s, (analysis deadLoopGraph).solve deadLoopGraph config' () = .ok s := by
  have hbuild : Cfg.build none deadLoop [] .default = .ok deadLoopGraph :=
    Cfg.build_eq_ok_iff.2 ⟨by decide, rfl⟩
  have hlinked := (Cfg.build_wired hbuild).linked
  have hstranded : NoStrandedCopies deadLoopGraph := by
    have hlist : ∀ n < deadLoopGraph.size,
        n ∉ deadLoopGraph.view.reversePostorder deadLoopGraph.view.sources →
        ∀ i ∈ deadLoopGraph.codeOf n, beginsCopy i = false := by decide +kernel
    exact fun n hn hout => hlist n hn fun hmem => hout ((View.mem_reversePostorder hlinked).1 hmem)
  refine ⟨⟨4, by decide +kernel, fun hreached => ?_, by decide +kernel⟩, hstranded,
    solve_converges hbuild hstranded⟩
  have hlisted := (View.mem_reversePostorder hlinked).2 hreached
  exact absurd hlisted (by decide +kernel)

/-- An unreachable cycle with two edges that lead backwards in the order of
the nodes. -/
def twistedLoop : List Instruction :=
  [⟨0, .return none⟩, ⟨1, .branch .conditional 3⟩, ⟨2, .branch .conditional 4⟩,
    ⟨3, .copy ⟨"a", none, .local⟩ ⟨"b", none, .local⟩⟩, ⟨4, .branch .conditional 1⟩,
    ⟨5, .copy ⟨"a", none, .local⟩ ⟨"b", none, .local⟩⟩, ⟨6, .branch .conditional 2⟩,
    ⟨7, .copy ⟨"a", none, .local⟩ ⟨"b", none, .local⟩⟩]

/-- **The facts of an unreachable cycle can chase each other forever.**  The
copy of `a` comes and goes at three nodes of the cycle, and after the third
pass all facts are what they were after the first. -/
theorem solve_unsettled_twistedLoop :
    ∃ g, Cfg.build none twistedLoop [] .default = .ok g ∧
      ∀ config : Config, (analysis g).solve g config () =
        .error (.notConverged "copy-propagation" config.maxIterations) := by
  refine ⟨_, Cfg.build_eq_ok_iff.2 ⟨by decide, rfl⟩, fun config => ?_⟩
  exact Analysis.solve_error_of_returns 1 1 (by decide +kernel) config

end Copies

end MethodFlow
