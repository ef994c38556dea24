import MethodFlow.Proofs.Data.Folds
import MethodFlow.Proofs.Flow.Passes

/-!
# Analyses that carry a state

The facts of an analysis may depend on the state that its transfers carry from
one to the next, and facts that count as the same need not be equal.  Its
solution still satisfies the dataflow equations in the end, if the state only
grows and a transfer can be repeated: under any state that has grown out of
the one it left behind, it gives the same fact and leaves the state alone.
Then all transfers of the last pass can be read as made under the final state,
and what flows out of a node counts as the same as what its transfer gives
there.

Along the way every fact stays legal, where legality may refer to the state
and is not lost when the state grows.

## Main results

* `Analysis.stepped_of_update`: what bringing a node up to date does.
* `Analysis.Carries.kept_iterate`: a run keeps legal facts and good states.
* `Analysis.Carries.settles_of_solve`: the equations that a solution
  satisfies.
-/

namespace MethodFlow

variable {σ φ : Type}

namespace Analysis

variable {a : Analysis σ φ} {v : View} {s s' : State σ φ} {n : NodeId} {x y : φ} {size : Nat}
  {order : List NodeId} {outs : NodeId → Option φ} {Good : σ → Prop} {Extends : σ → σ → Prop}
  {Legal : σ → φ → Prop}

/-! ## Bringing a node up to date -/

/-- `s'` is `s` after node `n` has been brought up to date: `x` flows in and
its transfer gives `y`, which replaces what flowed out before unless the two
count as the same. -/
structure Stepped (a : Analysis σ φ) (v : View) (size : Nat) (s s' : State σ φ) (n : NodeId)
    (x y : φ) : Prop where
  inflow : a.inflow v s.facts.out? n = .ok x
  transfer : a.transfer s.memory n x = .ok (y, s'.memory)
  fits : s'.facts.Fits size
  in? : ∀ m, s'.facts.in? m = if m = n then some x else s.facts.in? m
  outcome :
    (s'.facts.out? = s.facts.out? ∧ s'.changed = s.changed ∧
        ∃ old, s.facts.out? n = some old ∧ a.same old y = true) ∨
      (s'.facts.out? = Function.update s.facts.out? n (some y) ∧ s'.changed = true ∧
        ∀ old, s.facts.out? n = some old → a.same old y = false)

private theorem stepped_record (hs : s.facts.Fits size) (hn : n < size) {r : φ × σ}
    (hx : a.inflow v s.facts.out? n = .ok x) (hr : a.transfer s.memory n x = .ok r) :
    a.Stepped v size s (a.record s n x r) n x r.1 := by
  have hin : ∀ m, ((s.facts.flowIn.setIfInBounds n (some x))[m]?).join =
      if m = n then some x else s.facts.in? m :=
    join_setIfInBounds (by rw [hs.flowIn]; exact hn) x
  unfold record
  split_ifs with htest
  · refine ⟨hx, hr, ⟨by simp [hs.flowIn], hs.flowOut⟩, hin, .inl ⟨rfl, rfl, ?_⟩⟩
    split at htest
    · next old hold => exact ⟨old, hold, htest⟩
    · cases htest
  · refine ⟨hx, hr, ⟨by simp [hs.flowIn], by simp [hs.flowOut]⟩, hin, .inr ⟨?_, rfl, ?_⟩⟩
    · funext m
      rw [Function.update_apply]
      exact join_setIfInBounds (by rw [hs.flowOut]; exact hn) r.1 m
    · intro old hold
      have hread : (s.facts.flowOut[n]?).join = some old := hold
      simpa [hread] using htest

theorem stepped_of_update (hs : s.facts.Fits size) (hn : n < size)
    (h : a.update v s n = .ok s') : ∃ x y, a.Stepped v size s s' n x y := by
  rw [update_eq] at h
  obtain ⟨x, hx, h⟩ := bind_eq_ok.1 h
  obtain ⟨r, hr, h⟩ := bind_eq_ok.1 h
  cases h
  exact ⟨x, r.1, stepped_record hs hn hx hr⟩

/-! ## What a run keeps -/

/-- The states of an analysis only grow, its facts stay legal, and under a
state that has grown a transfer can be repeated. -/
structure Carries (a : Analysis σ φ) (Good : σ → Prop) (Extends : σ → σ → Prop)
    (Legal : σ → φ → Prop) : Prop where
  refl : ∀ m, Extends m m
  trans : ∀ {m m' m''}, Extends m m' → Extends m' m'' → Extends m m''
  mono : ∀ {m m' x}, Extends m m' → Legal m x → Legal m' x
  boundary : ∀ {m}, Good m → Legal m a.boundary
  initial : ∀ {m}, Good m → Legal m a.initial
  join : ∀ {m facts x}, Good m → (∀ y ∈ facts, Legal m y) → a.join facts = .ok x → Legal m x
  transfer : ∀ {m n x y m'}, Good m → Legal m x → a.transfer m n x = .ok (y, m') →
    Good m' ∧ Extends m m' ∧ Legal m' y
  replay : ∀ {m n x y m' last}, a.transfer m n x = .ok (y, m') → Extends m' last →
    a.transfer last n x = .ok (y, last)

/-- The state of the run is good and all facts so far are legal. -/
structure Kept (Good : σ → Prop) (Legal : σ → φ → Prop) (size : Nat) (s : State σ φ) :
    Prop where
  fits : s.facts.Fits size
  good : Good s.memory
  ins : ∀ n x, s.facts.in? n = some x → Legal s.memory x
  outs : ∀ n x, s.facts.out? n = some x → Legal s.memory x

theorem Kept.unchanged (hs : Kept Good Legal size s) :
    Kept Good Legal size { s with changed := false } :=
  ⟨hs.fits, hs.good, hs.ins, hs.outs⟩

theorem kept_blank {memory : σ} (hgood : Good memory) (size : Nat) :
    Kept Good Legal size (blank size memory : State σ φ) where
  fits := fits_blank size memory
  good := hgood
  ins n x h := by
    have hnone : (blank size memory : State σ φ).facts.in? n = none :=
      congrFun (out?_blank size memory) n
    rw [hnone] at h
    cases h
  outs n x h := by
    rw [out?_blank] at h
    cases h

/-- What flows out of the predecessors of a node is legal. -/
theorem legal_of_mem_pred {m : σ} (houts : ∀ n x, outs n = some x → Legal m x) :
    ∀ y ∈ (v.pred n).filterMap outs, Legal m y := by
  intro y hy
  obtain ⟨p, -, hp⟩ := List.mem_filterMap.1 hy
  exact houts p y hp

namespace Carries

/-- What flows into a node is legal. -/
theorem legal_inflow (h : a.Carries Good Extends Legal) {m : σ} (hgood : Good m)
    (houts : ∀ n x, outs n = some x → Legal m x) (hx : a.inflow v outs n = .ok x) :
    Legal m x := by
  rcases inflow_cases hx with ⟨-, rfl⟩ | ⟨-, -, rfl⟩ | ⟨-, -, hjoin⟩
  · exact h.boundary hgood
  · exact h.initial hgood
  · exact h.join hgood (legal_of_mem_pred houts) hjoin

theorem kept_stepped (h : a.Carries Good Extends Legal) (hs : Kept Good Legal size s)
    (hstep : a.Stepped v size s s' n x y) :
    Kept Good Legal size s' ∧ Extends s.memory s'.memory := by
  have hx := h.legal_inflow hs.good hs.outs hstep.inflow
  obtain ⟨hgood, hextends, hy⟩ := h.transfer hs.good hx hstep.transfer
  refine ⟨⟨hstep.fits, hgood, fun m z hz => ?_, fun m z hz => ?_⟩, hextends⟩
  · rw [hstep.in?] at hz
    split at hz
    · cases hz
      exact h.mono hextends hx
    · exact h.mono hextends (hs.ins m z hz)
  · rcases hstep.outcome with ⟨hout, -, -⟩ | ⟨hout, -, -⟩
    · rw [hout] at hz
      exact h.mono hextends (hs.outs m z hz)
    · rw [hout, Function.update_apply] at hz
      split at hz
      · cases hz
        exact hy
      · exact h.mono hextends (hs.outs m z hz)

theorem kept_update (h : a.Carries Good Extends Legal) (hn : n < size)
    (hs : Kept Good Legal size s) (hupdate : a.update v s n = .ok s') :
    Kept Good Legal size s' := by
  obtain ⟨x, y, hstep⟩ := stepped_of_update hs.fits hn hupdate
  exact (h.kept_stepped hs hstep).1

theorem kept_pass (h : a.Carries Good Extends Legal) (horder : ∀ n ∈ order, n < size)
    (hs : Kept Good Legal size s) (hpass : a.pass v order s = .ok s') :
    Kept Good Legal size s' :=
  foldlM_keeps (P := Kept Good Legal size)
    (fun n hn _ _ ht hupdate => h.kept_update (horder n hn) ht hupdate) hs.unchanged hpass

/-! ## A pass that changes nothing -/

/-- The facts of a node fit together under the given outgoing facts and the
final state. -/
structure Rests (a : Analysis σ φ) (v : View) (last : σ) (outs : NodeId → Option φ) (n : NodeId)
    (x old y : φ) : Prop where
  inflow : a.inflow v outs n = .ok x
  out : outs n = some old
  transfer : a.transfer last n x = .ok (y, last)
  same : a.same old y = true

/-- Nodes brought up to date one after the other without a change have all
seen the same outgoing facts, and their transfers can be repeated under the
state at the end. -/
theorem foldlM_rests (h : a.Carries Good Extends Legal) (horder : ∀ n ∈ order, n < size)
    (hs : Kept Good Legal size s) (hfold : order.foldlM (a.update v) s = .ok s')
    (hsame : s'.changed = false) :
    s.changed = false ∧ Kept Good Legal size s' ∧ Extends s.memory s'.memory ∧
      s'.facts.out? = s.facts.out? ∧
      (∀ m, m ∉ order → s'.facts.in? m = s.facts.in? m) ∧
      ∀ n ∈ order, ∃ x old y, s'.facts.in? n = some x ∧
        Rests a v s'.memory s.facts.out? n x old y := by
  induction order generalizing s with
  | nil =>
      cases hfold
      exact ⟨hsame, hs, h.refl _, rfl, fun _ _ => rfl, fun n hn => absurd hn List.not_mem_nil⟩
  | cons n rest ih =>
      rw [List.foldlM_cons] at hfold
      obtain ⟨s₁, hupdate, hrest⟩ := bind_eq_ok.1 hfold
      obtain ⟨x, y, hstep⟩ := stepped_of_update hs.fits (horder n List.mem_cons_self) hupdate
      obtain ⟨hs₁, hextends⟩ := h.kept_stepped hs hstep
      obtain ⟨hsame₁, hs', hextends', hout', hin', hrests⟩ :=
        ih (fun m hm => horder m (List.mem_cons_of_mem n hm)) hs₁ hrest
      rcases hstep.outcome with ⟨hout, hchanged, old, hold, holdsame⟩ | ⟨-, hchanged, -⟩
      · rw [hout] at hout' hrests
        refine ⟨hchanged ▸ hsame₁, hs', h.trans hextends hextends', hout', ?_, ?_⟩
        · intro m hm
          simp only [List.mem_cons, not_or] at hm
          rw [hin' m hm.2, hstep.in?, if_neg hm.1]
        · intro m hm
          by_cases hmem : m ∈ rest
          · exact hrests m hmem
          · have hmn : m = n := (List.mem_cons.1 hm).resolve_right hmem
            subst hmn
            refine ⟨x, old, y, ?_, hstep.inflow, hold, h.replay hstep.transfer hextends', holdsame⟩
            rw [hin' m hmem, hstep.in?, if_pos rfl]
      · rw [hchanged] at hsame₁
        cases hsame₁

/-- A run that ends well has kept everything legal, and its last pass has
changed nothing. -/
theorem kept_iterate (h : a.Carries Good Extends Legal) (horder : ∀ n ∈ order, n < size)
    {limit remaining passes : Nat} (hs : Kept Good Legal size s)
    (hrun : (a.iterate v order limit remaining passes s).result = .ok s') :
    ∃ s₀, Kept Good Legal size s₀ ∧ a.pass v order s₀ = .ok s' ∧ s'.changed = false := by
  induction remaining generalizing passes s with
  | zero => cases hrun
  | succ remaining ih =>
      simp only [iterate] at hrun
      cases hpass : a.pass v order s with
      | error e =>
          rw [hpass] at hrun
          cases hrun
      | ok s₁ =>
          simp only [hpass] at hrun
          by_cases hchanged : s₁.changed = true
          · rw [if_pos hchanged] at hrun
            exact ih (h.kept_pass horder hs hpass) hrun
          · rw [if_neg hchanged] at hrun
            cases hrun
            exact ⟨s, hs, hpass, by simpa using hchanged⟩

end Carries

/-! ## Solutions -/

/-- The facts on both sides of every node solve the equations of the analysis
under the final state: `ends` is what the transfers give there, and it counts
as the same as what flows out. -/
structure Settles (a : Analysis σ φ) (v : View) (last : σ) (ins outs ends : NodeId → φ) :
    Prop where
  boundary : ins a.origin = a.boundary
  join : ∀ n < v.size, n ≠ a.origin → v.pred n ≠ [] →
    a.join ((v.pred n).map outs) = .ok (ins n)
  transfer : ∀ n < v.size, a.transfer last n (ins n) = .ok (ends n, last)
  same : ∀ n < v.size, a.same (outs n) (ends n) = true

variable {c : Cfg} {config : Config} {memory : σ} {solution : Solution σ φ}

/-- **What a solution satisfies.**  The final state is good, every node has
legal facts on both sides, and these facts solve the equations of the analysis
under the final state. -/
theorem Carries.settles_of_solve (h : a.Carries Good Extends Legal) (hgood : Good memory)
    (hc : c.graph.Built) (hexit : Cfg.exit < c.size)
    (hsolve : a.solve c config memory = .ok solution) :
    Good solution.memory ∧
      ∃ ins outs ends : NodeId → φ,
        a.Settles (a.orient c.view) solution.memory ins outs ends ∧
        ∀ n < c.size, solution.flowIn? a.direction n = some (ins n) ∧
          Legal solution.memory (ins n) ∧ Legal solution.memory (outs n) := by
  obtain ⟨last, hlast, rfl⟩ := solve_eq_ok_iff.1 hsolve
  rw [run_eq] at hlast
  obtain ⟨s₀, hs₀, hpass, hsame⟩ :=
    h.kept_iterate (a.mem_order_lt c) (kept_blank hgood c.size) hlast
  obtain ⟨-, hkept, -, hout, -, hrests⟩ :=
    h.foldlM_rests (a.mem_order_lt c) hs₀.unchanged hpass hsame
  have hsize : (a.orient c.view).size = c.size := a.size_orient c.view
  have hlinked : (a.orient c.view).Linked := a.linked_orient hc.linked
  have hall : ∀ n < c.size, ∃ x old y, last.facts.in? n = some x ∧
      Rests a (a.orient c.view) last.memory s₀.facts.out? n x old y :=
    fun n hn => hrests n (View.mem_topologicalOrder.2 (by rw [hsize]; exact hn))
  have hfact : Nonempty φ := ⟨a.boundary⟩
  choose! ins outs ends hin hnode using hall
  have hpreds : ∀ n, ((a.orient c.view).pred n).filterMap s₀.facts.out? =
      ((a.orient c.view).pred n).map outs := by
    intro n
    rw [← List.filterMap_eq_map]
    refine List.filterMap_congr fun p hp => ?_
    exact (hnode p (hsize ▸ hlinked.source_lt (hlinked.mem_pred.1 hp))).out
  refine ⟨hkept.good, ins, outs, ends, ⟨?_, ?_, ?_, ?_⟩, ?_⟩
  · have hboundary := (hnode a.origin (a.origin_lt hexit)).inflow
    rw [inflow_origin] at hboundary
    exact (Except.ok.inj hboundary).symm
  · intro n hn hne hpred
    have hjoin := (hnode n (hsize ▸ hn)).inflow
    rw [inflow_join hne (by simpa [hpreds] using hpred), hpreds] at hjoin
    exact hjoin
  · exact fun n hn => (hnode n (hsize ▸ hn)).transfer
  · exact fun n hn => (hnode n (hsize ▸ hn)).same
  · intro n hn
    have hread := (Solution.read_ofState a.direction c.size
      (a.run c config.maxIterations memory).passes last hn).1
    have hstored : last.facts.out? n = some (outs n) := by
      rw [hout]
      exact (hnode n hn).out
    exact ⟨hread.trans (hin n hn), hkept.ins n _ (hin n hn), hkept.outs n _ hstored⟩

end Analysis

end MethodFlow
