import Mathlib.Logic.Relation
import MethodFlow.Proofs.Ssa.Construction

/-!
# The walk, turn by turn

`Ssa.Builder.walk` passes over a node that has been entered before, so that it
is bounded by the nodes still pending.  A walk down a tree needs no such
precaution.  It begins with one root after the other, works off the turns on
its stack and never asks where it has been.

The two walks make the same turns.  What remains to be entered hangs below
what has been entered (`Ssa.Hanging`): no node waits twice, the parent of a
node that waits has been entered, and everything below a pending node is
pending.  Hence a node whose turn comes is always pending.

## Main results

* `Ssa.Hanging.enter`: what entering a node keeps.
* `Ssa.runs_walk`: the walk turn by turn ends as `Ssa.Builder.walk` does.
-/

namespace MethodFlow

namespace Ssa

/-- A walk under way: the roots not yet begun with, the turns, the next one
first, and the builder. -/
structure Walking where
  roots : List NodeId
  visits : List Visit
  builder : Builder

variable {c : Cfg} {d : Dominators} {b : Builder} {pending nodes later rest : List NodeId}
  {visits : List Visit} {n : Nat}

/-- Takes the next turn, or begins with the next root when no turn is left. -/
def advance? (c : Cfg) (d : Dominators) : Walking → Option Walking
  | ⟨roots, .enter n :: rest, b⟩ =>
    let (pushed, b) := b.renameBlock c n
    some ⟨roots, (d.children n).map .enter ++ .leave pushed :: rest, b⟩
  | ⟨roots, .leave pushed :: rest, b⟩ => some ⟨roots, rest, b.leave pushed⟩
  | ⟨r :: roots, [], b⟩ => some ⟨roots, [.enter r], b⟩
  | ⟨[], [], _⟩ => none

/-- The walk leads from one state to the other. -/
def Runs (c : Cfg) (d : Dominators) : Walking → Walking → Prop :=
  Relation.ReflTransGen fun w w' => advance? c d w = some w'

/-! ## What waits -/

/-- The nodes that are still to be entered hang below those that have been. -/
structure Hanging (d : Dominators) (pending nodes : List NodeId) : Prop where
  nodup_pending : pending.Nodup
  nodup_nodes : nodes.Nodup
  waits : ∀ n ∈ nodes, n ∈ pending
  above : ∀ n ∈ nodes, ∀ p, d.idom? n = some p → p ∉ pending
  below : ∀ n p, d.idom? n = some p → p ∈ pending → n ∈ pending

/-- When a node is entered, its children wait instead. -/
theorem Hanging.enter (hc : c.Wired) (h : Hanging c.dominators pending (n :: rest)) :
    Hanging c.dominators (pending.erase n) (c.dominators.children n ++ rest) := by
  have hn : n ∈ pending := h.waits n List.mem_cons_self
  have hchild : ∀ {m}, m ∈ c.dominators.children n ↔ c.dominators.idom? m = some n :=
    Dominators.mem_children hc.linked
  have hne : ∀ {m}, c.dominators.idom? m = some n → m ≠ n := fun hm =>
    (Dominators.idom?_spec hm).2.1.symm
  obtain ⟨hnew, hrest⟩ := List.nodup_cons.1 h.nodup_nodes
  refine ⟨h.nodup_pending.erase n,
    List.nodup_append.2 ⟨List.nodup_range.filter _, hrest, ?_⟩, ?_, ?_, ?_⟩
  · rintro m hm _ hmem rfl
    exact h.above m (List.mem_cons_of_mem n hmem) n (hchild.1 hm) hn
  · intro m hm
    rcases List.mem_append.1 hm with hm | hm
    · exact (List.mem_erase_of_ne (hne (hchild.1 hm))).2 (h.below m n (hchild.1 hm) hn)
    · have hother : m ≠ n := fun heq => hnew (heq ▸ hm)
      exact (List.mem_erase_of_ne hother).2 (h.waits m (List.mem_cons_of_mem n hm))
  · intro m hm p hp hmem
    rcases List.mem_append.1 hm with hm | hm
    · rw [hchild.1 hm, Option.some.injEq] at hp
      exact h.nodup_pending.not_mem_erase (hp ▸ hmem)
    · exact h.above m (List.mem_cons_of_mem n hm) p hp (List.mem_of_mem_erase hmem)
  · intro m p hp hmem
    refine (List.mem_erase_of_ne ?_).2 (h.below m p hp (List.mem_of_mem_erase hmem))
    rintro rfl
    exact h.above m List.mem_cons_self p hp (List.mem_of_mem_erase hmem)

/-- At the beginning all nodes are pending, and the roots wait. -/
theorem hanging_roots (hc : c.Wired) :
    Hanging c.dominators c.view.nodes (roots c c.dominators) := by
  refine ⟨List.nodup_range, ?_, ?_, fun n hn p hp => ?_, fun n p hp _ => ?_⟩
  · refine List.nodup_cons.2 ⟨fun hmem => ?_, List.nodup_range.filter _⟩
    have hne := (List.mem_filter.1 hmem).2
    simp at hne
  · intro n hn
    rcases List.mem_cons.1 hn with rfl | hn
    · exact List.mem_range.2 hc.entry_lt
    · exact (List.mem_filter.1 hn).1
  · rw [idom?_of_mem_roots hc hn] at hp
    cases hp
  · exact List.mem_range.2 (Dominators.idom?_lt hc.linked hp).2

/-! ## The turns -/

/-- The next node is that of the next turn or, when no turn is left, the next
root. -/
theorem next_enter {turns : List Visit} (h : visits ++ later.map Visit.enter = .enter n :: turns) :
    (∃ visits', visits = .enter n :: visits' ∧ visits' ++ later.map .enter = turns) ∨
      (visits = [] ∧ ∃ later', later = n :: later' ∧ later'.map .enter = turns) := by
  cases visits with
  | nil =>
      cases later with
      | nil => cases h
      | cons r later =>
          obtain ⟨hr, hrest⟩ := List.cons.inj h
          cases hr
          exact .inr ⟨rfl, later, rfl, hrest⟩
  | cons visit visits =>
      obtain ⟨rfl, hrest⟩ := List.cons.inj h
      exact .inl ⟨visits, rfl, hrest⟩

/-- The walk turn by turn makes the turns that `Ssa.Builder.walk` makes, which
takes the roots still to come for turns behind the others. -/
theorem runs_walk_append (hc : c.Wired)
    (h : Hanging c.dominators pending (entered visits ++ later)) :
    Runs c c.dominators ⟨later, visits, b⟩
      ⟨[], [], b.walk c c.dominators pending (visits ++ later.map .enter)⟩ := by
  generalize hturns : visits ++ later.map Visit.enter = turns
  fun_induction Builder.walk c c.dominators pending turns b generalizing visits later with
  | case1 pending b =>
      obtain ⟨rfl, hlater⟩ := List.append_eq_nil_iff.1 hturns
      obtain rfl := List.map_eq_nil_iff.1 hlater
      exact .refl
  | case2 pending pushed rest b ih =>
      cases visits with
      | nil => cases later <;> cases hturns
      | cons visit visits =>
          obtain ⟨rfl, rfl⟩ := List.cons.inj hturns
          exact .head rfl (ih h rfl)
  | case3 pending n rest b hn pushed b' hrenamed ih =>
      have henter : ∀ visits later, visits ++ later.map .enter = rest →
          Hanging c.dominators pending (n :: (entered visits ++ later)) →
          Runs c c.dominators ⟨later, .enter n :: visits, b⟩ ⟨[], [], b'.walk c c.dominators
            (pending.erase n) ((c.dominators.children n).map .enter ++ .leave pushed :: rest)⟩ := by
        rintro visits later rfl hhanging
        have hstep : advance? c c.dominators ⟨later, .enter n :: visits, b⟩ =
            some ⟨later, (c.dominators.children n).map .enter ++ .leave pushed :: visits, b'⟩ := by
          rw [advance?, hrenamed]
        refine .head hstep (ih ?_ (by simp))
        rw [entered_children, List.append_assoc]
        exact hhanging.enter hc
      rcases next_enter hturns with ⟨visits, rfl, hrest⟩ | ⟨rfl, later, rfl, hrest⟩
      · exact henter visits later hrest h
      · -- The node is the next root, which has to be begun with first.
        exact .head rfl (henter [] later hrest h)
  | case4 pending n rest b hn ih =>
      have hwaits : n ∈ entered visits ++ later := by
        rcases next_enter hturns with ⟨visits, rfl, -⟩ | ⟨rfl, later, rfl, -⟩
        · exact List.mem_cons_self
        · exact List.mem_cons_self
      exact absurd (h.waits n hwaits) hn

/-- **Turn by turn** the walk ends as `Ssa.Builder.walk` does, from whatever
builder. -/
theorem runs_walk (hc : c.Wired) (b : Builder) :
    Runs c c.dominators ⟨roots c c.dominators, [], b⟩
      ⟨[], [], b.walk c c.dominators c.view.nodes ((roots c c.dominators).map .enter)⟩ :=
  @runs_walk_append c b _ _ [] hc (hanging_roots hc)

end Ssa

end MethodFlow
