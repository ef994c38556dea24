import Mathlib.Computability.StateTransition
import MethodFlow.Proofs.Flow.CopyPrecision

/-!
# Chains of copies end

To resolve a variable is to go from it to the variable it was copied from, and
on from there as long as that is a copy too.  This loop does not remember where
it has been, and on a circle of copies it would go on forever.  `resolve` takes
no more steps than there are copies.  It is the loop all the same, because the
facts that the analysis works with have no circles.

These facts come from the empty one by instructions and by joins (`Derived`).
An instruction that begins a copy has first ended every copy that mentions its
destination, so the new copy leads away from a variable that nothing leads to
and can close no circle.  A join only loses copies.

## Main results

* `Copies.Derived.acyclic`: derived facts have no circles.
* `Copies.Acyclic.chase_eq`: without circles the loop ends, and `resolve` is
  what it ends with.
* `Copies.chains_end`: on a derived fact no chain comes back to its beginning,
  and the loop ends with the resolved variable, after no more steps than there
  are copies.
* `Copies.derived_of_solve`: the facts of a solution are derived, also at
  nodes that cannot be reached.
-/

namespace MethodFlow

namespace Copies

variable {c : Copies} {x y : Variable} {steps : Nat}

/-! ## Derived facts -/

/-- The facts that come from the empty one by instructions of any kind and by
joins of one or more such facts. -/
inductive Derived : Copies → Prop
  | empty : Derived Copies.empty
  | apply {c : Copies} (h : Derived c) (i : Instruction) : Derived (c.apply i)
  | join {facts : List Copies} (hne : facts ≠ []) (h : ∀ c ∈ facts, Derived c) :
      Derived (Copies.join facts)

theorem Derived.block (h : Derived c) (code : List Instruction) :
    Derived (code.foldl Copies.apply c) := by
  induction code generalizing c with
  | nil => exact h
  | cons i code ih => exact ih (h.apply i)

/-- A join has lost copies of each of its facts, or none. -/
theorem thins_join {facts : List Copies} (hc : c ∈ facts) : c.Thins (join facts) :=
  fun _ _ hxy => (source?_join (List.ne_nil_of_mem hc)).1 hxy c hc

/-- Derived facts have no circles.  A join takes the ranks of any one of its
facts. -/
theorem Derived.acyclic (h : Derived c) : c.Acyclic := by
  induction h with
  | empty => exact .empty
  | apply _ i ih => exact ih.apply i
  | join hne _ ih =>
      obtain ⟨first, hfirst⟩ := List.exists_mem_of_ne_nil _ hne
      exact (ih first hfirst).of_thins (thins_join hfirst)

/-! ## Chains -/

/-- A copy leads from its destination to its source. -/
def Leads (c : Copies) (dest source : Variable) : Prop := c.source? dest = some source

/-- The given number of copies, one after the other, leads from the first
variable to the second. -/
inductive Chain (c : Copies) : Nat → Variable → Variable → Prop
  | nil (x : Variable) : Chain c 0 x x
  | cons {steps : Nat} {x y z : Variable} (hxy : c.Leads x y) (h : Chain c steps y z) :
      Chain c (steps + 1) x z

theorem Chain.reaches (h : c.Chain steps x y) : StateTransition.Reaches c.source? x y := by
  induction h with
  | nil x => exact .refl
  | cons hxy _ ih => exact .head hxy ih

theorem Ranked.lt_of_transGen {rank : Variable → Nat} (h : c.Ranked rank)
    (hxy : Relation.TransGen c.Leads x y) : rank y < rank x := by
  induction hxy with
  | single hlead => exact h _ _ hlead
  | tail _ hlead ih => exact Nat.lt_trans (h _ _ hlead) ih

/-- No chain of copies comes back to the variable where it begins. -/
theorem Acyclic.not_transGen_self (h : c.Acyclic) (x : Variable) :
    ¬ Relation.TransGen c.Leads x x := by
  obtain ⟨rank, hrank⟩ := h
  intro hcircle
  exact Nat.lt_irrefl _ (hrank.lt_of_transGen hcircle)

/-- Following copies for a number of steps goes along a chain that is not
longer. -/
theorem exists_chain_follow (c : Copies) (steps : Nat) (x : Variable) :
    ∃ taken ≤ steps, c.Chain taken x (c.follow steps x) := by
  induction steps generalizing x with
  | zero => exact ⟨0, Nat.le_refl 0, .nil x⟩
  | succ steps ih =>
      rw [follow]
      split
      · next y hxy =>
        obtain ⟨taken, hle, hchain⟩ := ih y
        exact ⟨taken + 1, Nat.succ_le_succ hle, .cons hxy hchain⟩
      · exact ⟨0, Nat.zero_le _, .nil x⟩

/-! ## The loop without a bound -/

/-- Goes from a variable to what it was copied from as long as there is such a
variable, and gives the last one.  If this never ends, there is no value. -/
def chase (c : Copies) (x : Variable) : Part Variable := StateTransition.eval c.source? x

/-- Where copies do not lead in a circle, the loop ends, and it ends with the
resolved variable. -/
theorem Acyclic.chase_eq (h : c.Acyclic) (x : Variable) :
    c.chase x = Part.some (c.resolve x) := by
  obtain ⟨_, -, hchain⟩ := exists_chain_follow c c.size x
  have hmem : c.resolve x ∈ c.chase x :=
    StateTransition.mem_eval.2 ⟨hchain.reaches, h.source?_resolve x⟩
  exact Part.eq_some_iff.2 hmem

/-- **Chains of copies end.**  On every fact that comes from the empty one by
instructions and joins, no chain of copies comes back to the variable where it
begins.  So the loop that follows the copies ends from every variable.  It ends
with the resolved variable, which is a copy of no other, and no more steps
away than there are copies. -/
theorem chains_end (h : Derived c) :
    (∀ x, ¬ Relation.TransGen c.Leads x x) ∧
      ∀ x, c.chase x = Part.some (c.resolve x) ∧ c.source? (c.resolve x) = none ∧
        ∃ steps ≤ c.size, c.Chain steps x (c.resolve x) := by
  have hacyclic := h.acyclic
  exact ⟨hacyclic.not_transGen_self, fun x =>
    ⟨hacyclic.chase_eq x, hacyclic.source?_resolve x, exists_chain_follow c c.size x⟩⟩

/-- A block that copies `c` to `a`, `a` to `b` and `b` back to `c`. -/
def turningBlock : List Instruction :=
  [⟨0, .copy ⟨"a", none, .local⟩ ⟨"c", none, .local⟩⟩,
    ⟨1, .copy ⟨"b", none, .local⟩ ⟨"a", none, .local⟩⟩,
    ⟨2, .copy ⟨"c", none, .local⟩ ⟨"b", none, .local⟩⟩]

/-- A block that copies `a` on to `b`, `c` and `d`, and `e` to itself. -/
def passingBlock : List Instruction :=
  [⟨3, .copy ⟨"b", none, .local⟩ ⟨"a", none, .local⟩⟩,
    ⟨4, .copy ⟨"c", none, .local⟩ ⟨"b", none, .local⟩⟩,
    ⟨5, .copy ⟨"d", none, .local⟩ ⟨"c", none, .local⟩⟩,
    ⟨6, .copy ⟨"e", none, .local⟩ ⟨"e", none, .local⟩⟩]

/-- The copies that both blocks leave behind. -/
def meetingCopies : Copies :=
  join [turningBlock.foldl Copies.apply empty, passingBlock.foldl Copies.apply empty]

/-- Where the two blocks meet, the copies of `b` and `c` are left.  The one
that would have closed the circle has ended, and both are needed to get from
`c` to `a`. -/
theorem chains_end_meetingCopies :
    Derived meetingCopies ∧ meetingCopies.size = 2 ∧
      ¬ Relation.TransGen meetingCopies.Leads ⟨"c", none, .local⟩ ⟨"c", none, .local⟩ ∧
      meetingCopies.chase ⟨"c", none, .local⟩ = Part.some ⟨"a", none, .local⟩ ∧
      meetingCopies.source? ⟨"a", none, .local⟩ = none ∧
      ∃ steps ≤ 2, meetingCopies.Chain steps ⟨"c", none, .local⟩ ⟨"a", none, .local⟩ := by
  have hderived : Derived meetingCopies := by
    refine .join (by simp) fun c hc => ?_
    rcases List.mem_pair.1 hc with rfl | rfl
    · exact Derived.empty.block turningBlock
    · exact Derived.empty.block passingBlock
  have hsize : meetingCopies.size = 2 := by decide +kernel
  have hresolve : meetingCopies.resolve ⟨"c", none, .local⟩ = ⟨"a", none, .local⟩ := by
    decide +kernel
  obtain ⟨hcircle, hloop⟩ := chains_end hderived
  have hend := hloop ⟨"c", none, .local⟩
  rw [hresolve, hsize] at hend
  exact ⟨hderived, hsize, hcircle _, hend⟩

/-! ## Facts of solutions -/

variable {g : Cfg} {config : Config} {s : Solution Unit Copies} {n : NodeId}
  {v : View} {outs : NodeId → Option Copies}

/-- What flows into a node is derived from what flows out of others. -/
theorem derived_inflow (houts : ∀ m c, outs m = some c → Derived c)
    (h : (analysis g).inflow v outs n = .ok c) : Derived c := by
  rcases Analysis.inflow_cases h with ⟨-, rfl⟩ | ⟨-, -, rfl⟩ | ⟨-, hknown, hjoin⟩
  · exact .empty
  · exact .empty
  · rw [← Except.ok.inj hjoin]
    refine .join hknown fun d hd => ?_
    obtain ⟨m, -, hm⟩ := List.mem_filterMap.1 hd
    exact houts m d hm

/-- Bringing a node up to date keeps all facts derived. -/
theorem keeps_derived (g : Cfg) (v : View) (order : List NodeId) :
    (analysis g).Keeps v order fun outs => ∀ n c, outs n = some c → Derived c where
  start _ _ hnone := nomatch hnone
  step := by
    intro _ _ n outs x y _ _ houts hcomputes m c hout
    by_cases hmn : m = n
    · rw [hmn, Function.update_self] at hout
      have hy : (g.codeOf n).foldl Copies.apply x = y := Except.ok.inj (hcomputes.flow ())
      rw [← Option.some.inj hout, ← hy]
      exact (derived_inflow houts hcomputes.inflow).block _
    · rw [Function.update_of_ne hmn] at hout
      exact houts m c hout

/-- The facts of a solution are derived, whether or not the entry leads to
their node. -/
theorem derived_of_solve (hg : g.graph.Built) (hexit : Cfg.exit < g.size)
    (h : (analysis g).solve g config () = .ok s) (hn : n < g.size) :
    ∃ before behind, s.input? n = some before ∧ s.output? n = some behind ∧
      Derived before ∧ Derived behind := by
  -- The equations of the solution alone do not give this: on a cycle that
  -- nothing enters they also hold of facts with circles.  The run does.
  obtain ⟨outs, houts, hfacts⟩ := (keeps_derived g _ _).exists_of_solve (plain g) hexit h
  obtain ⟨ins, leaving, hsolved⟩ := exists_solved hg hexit h
  obtain ⟨x, _, hcomputes, hinput, -⟩ := hfacts n hn
  have hbefore : Derived (ins n) := by
    obtain rfl : ins n = x := Option.some.inj ((hsolved.input n hn).symm.trans hinput)
    exact derived_inflow houts hcomputes.inflow
  refine ⟨ins n, leaving n, hsolved.input n hn, hsolved.output n hn, hbefore, ?_⟩
  rw [hsolved.outs_eq hn]
  exact hbefore.block _

end Copies

end MethodFlow
