import Mathlib.Data.Set.Basic
import Mathlib.Order.Bounds.Defs
import MethodFlow.Proofs.Graph.DominatorTree

/-!
# Frontiers and what they add up to

The iterated frontier is found by a search: the nodes it starts from and every
node of a frontier met so far are followed once, and all their frontiers are
collected.  A node that the search starts from is not collected on that
account, only when it lies in a frontier as well.  Since whatever the search
follows is one of the given nodes or was collected, the collection is the
least set that contains the frontiers of the given nodes and of its own
members.

## Main results

* `Dominators.isLeast_iteratedFrontier`: the iterated frontier is the least
  set closed under frontiers.
* `Dominators.frontiers_exact`: frontiers and iterated frontiers of a graph
  and of its reverse, from any root.
-/

namespace MethodFlow

namespace Dominators

variable {v : View} {root f n : Nat} {defs : List NodeId} {S : Set NodeId}

/-- `S` contains the frontiers of the given nodes and of its own members. -/
def FrontierClosed (d : Dominators) (starts S : Set NodeId) : Prop :=
  ∀ x, x ∈ starts ∨ x ∈ S → ∀ f ∈ d.frontier x, f ∈ S

/-! ## Order -/

theorem ascends_frontier (v : View) (root n : NodeId) :
    ((compute v root).frontier n).Pairwise (· < ·) := by
  have hfrontiers : (compute v root).frontiers =
      (Array.range v.size).map (frontierOf v (compute v root).sets) := rfl
  rw [frontier, hfrontiers, Array.getD_eq_getD_getElem?]
  by_cases hn : n < v.size
  · simp only [Array.getElem?_map, Array.getElem?_range, hn, ↓reduceIte, Option.map_some,
      Option.getD_some]
    exact List.pairwise_lt_range.filter _
  · simp [hn]

theorem ascends_iteratedFrontier (d : Dominators) (defs : List NodeId) :
    (d.iteratedFrontier defs).Pairwise (· < ·) := by
  rw [iteratedFrontier, BitSet.toList_eq_filter]
  exact List.pairwise_lt_range.filter _

/-! ## The least closed set -/

theorem frontierClosed_iteratedFrontier (hv : v.Linked) (defs : List NodeId) :
    (compute v root).FrontierClosed {x | x ∈ defs}
      {f | f ∈ (compute v root).iteratedFrontier defs} := by
  rintro x (hx | hx) f hf
  · exact mem_iteratedFrontier_of_def hv hx (lt_of_mem_frontier hv hf) hf
  · exact mem_iteratedFrontier_of_mem hv hx hf

/-- What the search follows is one of the given nodes or a member of every
closed set. -/
private theorem given_or_mem_of_reachIn
    (hclosed : (compute v root).FrontierClosed {x | x ∈ defs ∧ x < v.size} S)
    (h : ReachIn (compute v root).frontier v.nodes defs n) :
    (n ∈ defs ∧ n < v.size) ∨ n ∈ S := by
  induction h with
  | root hpending hwork => exact .inl ⟨hwork, List.mem_range.1 hpending⟩
  | step _ _ hnext ih => exact .inr (hclosed _ ih _ hnext)

/-- Of the sets that contain the frontiers of the given nodes and of their own
members, the iterated frontier is the least. -/
theorem isLeast_iteratedFrontier (hv : v.Linked) (defs : List NodeId) :
    IsLeast {S : Set NodeId | (compute v root).FrontierClosed {x | x ∈ defs ∧ x < v.size} S}
      {f | f ∈ (compute v root).iteratedFrontier defs} := by
  constructor
  · intro x hx
    exact frontierClosed_iteratedFrontier hv defs x (hx.imp_left And.left)
  · intro S hclosed f hf
    obtain ⟨n, hreach, hn⟩ := (mem_iteratedFrontier hv).1 hf
    exact hclosed n (given_or_mem_of_reachIn hclosed hreach) f hn

/-! ## Graphs and their reverses -/

/-- **Frontiers are exact.**  On a graph made by adding nodes and edges, and
on its reverse, from any root: the frontier of a node lists, ascending, the
nodes with a predecessor that it dominates while not dominating them strictly.
For any list of numbers, some of them repeated or no nodes, the iterated
frontier lists, ascending, the least set that contains the frontiers of the
nodes among them and of its own members. -/
theorem frontiers_exact {ν ε : Type} {g : Digraph ν ε} (hg : g.Built)
    {v : View} (hv : v = g.view ∨ v = g.view.reverse) (root : NodeId) :
    (∀ n, ((compute v root).frontier n).Pairwise (· < ·) ∧
      ∀ f, f ∈ (compute v root).frontier n ↔
        (∃ p ∈ v.pred f, (compute v root).dominates n p = true) ∧
          (compute v root).strictlyDominates n f = false) ∧
    ∀ defs, ((compute v root).iteratedFrontier defs).Pairwise (· < ·) ∧
      IsLeast {S : Set NodeId | ∀ x, (x ∈ defs ∧ x < v.size) ∨ x ∈ S →
          ∀ f ∈ (compute v root).frontier x, f ∈ S}
        {f | f ∈ (compute v root).iteratedFrontier defs} := by
  have hlinked := hg.linked_of_view hv
  refine ⟨fun n => ⟨ascends_frontier v root n, fun f => ?_⟩,
    fun defs => ⟨ascends_iteratedFrontier _ defs, isLeast_iteratedFrontier hlinked defs⟩⟩
  rw [mem_frontier hlinked, ← strictlyDominates_iff, Bool.not_eq_true]
  simp only [hlinked.mem_pred]

/-- From a node that the root does not reach, named twice beside a number that
is no node, the frontiers lead into the cycle and around it to the root. -/
theorem frontiers_exact_sideEntry :
    sideEntry.Built ∧ (compute sideEntry.view 0).frontier 3 = [2] ∧
      (compute sideEntry.view 0).iteratedFrontier [3, 3, 9] = [0, 2] ∧
      IsLeast {S : Set NodeId | ∀ x, (x ∈ [3, 3, 9] ∧ x < sideEntry.view.size) ∨ x ∈ S →
          ∀ f ∈ (compute sideEntry.view 0).frontier x, f ∈ S}
        {f | f ∈ [0, 2]} := by
  have hbuilt : sideEntry.Built :=
    Digraph.built_foldl_connect (Digraph.built_foldl_addNode .empty _)
      (by unfold Digraph.EdgesWithin; decide)
  have hall : (compute sideEntry.view 0).iteratedFrontier [3, 3, 9] = [0, 2] := by
    decide +kernel
  have hleast := ((frontiers_exact hbuilt (.inl rfl) 0).2 [3, 3, 9]).2
  rw [hall] at hleast
  exact ⟨hbuilt, by decide +kernel, hall, hleast⟩

end Dominators

end MethodFlow
