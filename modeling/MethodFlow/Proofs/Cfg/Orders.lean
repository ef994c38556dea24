import MethodFlow.Proofs.Cfg.Loops
import MethodFlow.Proofs.Graph.Inversions

/-!
# The orders of a control flow graph

The search behind the forward order begins with the entry, so every node that
the entry reaches is reached by a path along the order, and its dominators,
which lie on this path, stand before it.  Back edges therefore never lead
onward.

The converse fails.  An edge that does not lead onward is closed to a cycle by
a path along the order, but its target need not dominate its source: a cycle
that is entered at two places has no dominating node, and a cycle that the
entry does not reach has none either.  On such a cycle of edges that are no
back edges no order leads onward everywhere, so the forward order does what
can be done.  An edge that is no back edge leads onward, or it is closed to a
cycle by edges that are no back edges and lead onward.  Where some order leads
onward along all edges that are no back edges, the forward order is one.

## Main results

* `Cfg.idxOf_le_of_dominates`: dominators stand before what they dominate.
* `Cfg.orders_exact`: what the orders list, and which edges they invert.
* `Cfg.forwardOrder_onward`: the forward order and the edges that are no back
  edges.
-/

namespace MethodFlow

namespace View

variable {v : View} {d : Dominators} {s t : NodeId} {path : List NodeId}

/-- The graph without its back edges. -/
def onward (v : View) (d : Dominators) : View where
  size := v.size
  succ s := (v.succ s).filter fun t => !d.dominates t s
  pred t := (v.pred t).filter fun s => !d.dominates t s

theorem mem_succ_onward :
    t ∈ (v.onward d).succ s ↔ t ∈ v.succ s ∧ d.dominates t s = false := by
  simp [onward]

/-- A numbering that grows along all edges grows along paths. -/
theorem le_of_path {rank : NodeId → Nat} (hrank : ∀ s t, t ∈ v.succ s → rank s < rank t)
    (hpath : v.Path s t path) : rank s ≤ rank t := by
  induction hpath with
  | start => exact Nat.le_refl _
  | step _ hedge ih => exact Nat.le_trans ih (Nat.le_of_lt (hrank _ _ hedge))

end View

namespace Cfg

variable {c : Cfg} {s t n : NodeId} {path : List NodeId}

/-! ## Positions -/

theorem nodup_forwardOrder (c : Cfg) : c.forwardOrder.Nodup := c.view.nodup_topologicalOrder

theorem nodup_backwardOrder (c : Cfg) : c.backwardOrder.Nodup :=
  c.view.reverse.nodup_topologicalOrder

theorem forwardIndex?_of_lt (hn : n < c.view.size) :
    c.forwardIndex? n = some (c.forwardOrder.idxOf n) :=
  View.idxOf?_eq_idxOf c.nodup_forwardOrder (View.mem_topologicalOrder.2 hn)

theorem backwardIndex?_of_lt (hn : n < c.view.size) :
    c.backwardIndex? n = some (c.backwardOrder.idxOf n) :=
  View.idxOf?_eq_idxOf c.nodup_backwardOrder (View.mem_topologicalOrder.2 hn)

/-! ## Dominators come first -/

/-- A dominator stands at or before what it dominates. -/
theorem idxOf_le_of_dominates (hc : c.Wired) (hs : s < c.view.size)
    (hdom : c.dominators.dominates t s = true) :
    c.forwardOrder.idxOf t ≤ c.forwardOrder.idxOf s := by
  by_cases hts : t = s
  · rw [hts]
  obtain ⟨-, hreach⟩ := Dominators.reaches_of_dominates hc.linked hts hdom
  obtain ⟨front, back, hsplit⟩ := List.append_of_mem (View.mem_topologicalOrder.2 hs)
  obtain ⟨path, hpath, hsub⟩ :=
    View.exists_path_along hc.linked hc.entry_lt hc.entry_first hreach hsplit
  have hmem : t ∈ front ++ [s] :=
    hsub.subset ((Dominators.dominates_iff hc.linked hc.entry_lt hreach).1 hdom path hpath)
  have hfront : t ∈ front :=
    (List.mem_append.1 hmem).resolve_right fun h => hts (List.mem_singleton.1 h)
  have hbefore : [t, s].Sublist c.forwardOrder := by
    rw [forwardOrder, hsplit]
    exact (List.singleton_sublist.2 hfront).append (by simp)
  exact Nat.le_of_lt (View.idxOf_lt_of_sublist c.nodup_forwardOrder hbefore)

/-- A path along the forward order passes no back edge. -/
theorem path_onward (hc : c.Wired) (hpath : c.view.Path t s path)
    (hsub : path.Sublist c.forwardOrder) : (c.view.onward c.dominators).Path t s path := by
  induction hpath with
  | start => exact .start
  | @step a b path hpath hedge ih =>
      have hends : [a, b].Sublist (path ++ [b]) :=
        (List.singleton_sublist.2 hpath.end_mem).append (.refl [b])
      have hlt := View.idxOf_lt_of_sublist c.nodup_forwardOrder (hends.trans hsub)
      have hback : c.dominators.dominates b a = false := by
        rw [Bool.eq_false_iff]
        intro hdom
        have hle := idxOf_le_of_dominates hc (hc.linked.source_lt hedge) hdom
        omega
      refine .step (ih ((List.sublist_append_left path [b]).trans hsub)) ?_
      exact View.mem_succ_onward.2 ⟨hedge, hback⟩

/-! ## Which edges lead onward -/

/-- An edge leads onward, or edges that are no back edges lead from its target
to its source along the order. -/
theorem onward_or_exists_path (hc : c.Wired) (hedge : t ∈ c.view.succ s) :
    c.forwardOrder.idxOf s < c.forwardOrder.idxOf t ∨
      ∃ path, (c.view.onward c.dominators).Path t s path ∧ path.Sublist c.forwardOrder := by
  rcases View.sublist_or_exists_path hc.linked hedge with hsub | ⟨path, hpath, hsub⟩
  · exact .inl (View.idxOf_lt_of_sublist c.nodup_forwardOrder hsub)
  · exact .inr ⟨path, path_onward hc hpath hsub, hsub⟩

/-- **The orders follow the edges.**  The topological order of a graph made by
adding nodes and edges, and of its reverse, lists every node once.  An edge
whose source does not come before its target lies on a cycle, so on a graph
without cycles all edges lead from earlier to later nodes.  The positions in
the forward and the backward order of a control flow graph invert these
orders, and an edge whose target dominates its source does not lead onward in
the forward order. -/
theorem orders_exact :
    (∀ {ν ε : Type} {g : Digraph ν ε} {v : View}, g.Built → v = g.view ∨ v = g.view.reverse →
      v.topologicalOrder.Perm (List.range v.size) ∧
      (∀ s t, t ∈ v.succ s →
        ¬ v.topologicalOrder.idxOf s < v.topologicalOrder.idxOf t → v.Reaches t s) ∧
      ((∀ s t, t ∈ v.succ s → ¬ v.Reaches t s) → ∀ s t, t ∈ v.succ s →
        v.topologicalOrder.idxOf s < v.topologicalOrder.idxOf t)) ∧
    ∀ {method : Option MethodRef} {code : List Instruction} {regions : List Region}
      {config : Config} {c : Cfg}, build method code regions config = .ok c →
      (∀ n i, c.forwardIndex? n = some i ↔ c.forwardOrder[i]? = some n) ∧
      (∀ n i, c.backwardIndex? n = some i ↔ c.backwardOrder[i]? = some n) ∧
      (∀ n < c.size, (c.forwardIndex? n).isSome = true ∧ (c.backwardIndex? n).isSome = true) ∧
      ∀ s t, t ∈ c.view.succ s → c.dominators.dominates t s = true →
        ∃ i j, c.forwardIndex? t = some i ∧ c.forwardIndex? s = some j ∧ i ≤ j := by
  constructor
  · intro ν ε g v hg hview
    have hv : v.Linked := hg.linked_of_view hview
    have hcycle : ∀ s t, t ∈ v.succ s →
        ¬ v.topologicalOrder.idxOf s < v.topologicalOrder.idxOf t → v.Reaches t s := by
      intro s t hedge hnot
      rcases View.sublist_or_exists_path hv hedge with hsub | ⟨path, hpath, -⟩
      · exact absurd (View.idxOf_lt_of_sublist v.nodup_topologicalOrder hsub) hnot
      · exact ⟨path, hpath⟩
    refine ⟨v.perm_topologicalOrder, hcycle, fun hacyclic s t hedge => ?_⟩
    by_contra hnot
    exact hacyclic s t hedge (hcycle s t hedge hnot)
  · intro method code regions config c hbuild
    have hc : c.Wired := build_wired hbuild
    refine ⟨fun n i => View.idxOf?_eq_some_iff c.nodup_forwardOrder,
      fun n i => View.idxOf?_eq_some_iff c.nodup_backwardOrder, fun n hn => ?_,
      fun s t hedge hdom => ?_⟩
    · rw [forwardIndex?_of_lt hn, backwardIndex?_of_lt hn]
      exact ⟨rfl, rfl⟩
    · have hs := hc.linked.source_lt hedge
      exact ⟨_, _, forwardIndex?_of_lt (hc.linked.target_lt hedge), forwardIndex?_of_lt hs,
        idxOf_le_of_dominates hc hs hdom⟩

/-- In the reverse of a graph with a cycle through its root, the edge from 1 to
0 leads backwards, on the cycle.  In the graph of a loop with a jump into its
middle, the back edge leads from the fourth node of the order to the third. -/
theorem orders_exact_sideEntry :
    Dominators.sideEntry.Built ∧ Dominators.sideEntry.view.reverse.topologicalOrder = [0, 2, 3, 1] ∧
      0 ∈ Dominators.sideEntry.view.reverse.succ 1 ∧
      Dominators.sideEntry.view.reverse.Reaches 0 1 ∧
      ∃ c, build none deadJump [] .default = .ok c ∧ c.forwardOrder = [5, 0, 2, 4, 3, 1] ∧
        2 ∈ c.view.succ 4 ∧ c.dominators.dominates 2 4 = true ∧
        c.forwardIndex? 5 = some 0 ∧
        ∃ i j, c.forwardIndex? 2 = some i ∧ c.forwardIndex? 4 = some j ∧ i ≤ j := by
  have hbuilt : Dominators.sideEntry.Built :=
    Digraph.built_foldl_connect (Digraph.built_foldl_addNode .empty _)
      (by unfold Digraph.EdgesWithin; decide)
  have horder : Dominators.sideEntry.view.reverse.topologicalOrder = [0, 2, 3, 1] := by
    decide +kernel
  have hedge : 0 ∈ Dominators.sideEntry.view.reverse.succ 1 := by decide +kernel
  let c : Cfg := ⟨none, (Layout.of deadJump []).graph .default⟩
  have hbuild : build none deadJump [] .default = .ok c := build_eq_ok_iff.2 ⟨by decide, rfl⟩
  have hforward : c.forwardOrder = [5, 0, 2, 4, 3, 1] := by decide +kernel
  have hback : 2 ∈ c.view.succ 4 ∧ c.dominators.dominates 2 4 = true := by decide +kernel
  obtain ⟨-, hcycle, -⟩ := orders_exact.1 hbuilt (.inr rfl)
  obtain ⟨hindex, -, -, hdom⟩ := orders_exact.2 hbuild
  refine ⟨hbuilt, horder, hedge, hcycle 1 0 hedge ?_, c, hbuild, hforward, hback.1, hback.2, ?_,
    hdom 4 2 hback.1 hback.2⟩
  · rw [horder]
    decide
  · rw [hindex, hforward]
    rfl

/-- **The forward order goes onward wherever an order can.**  An edge that is
no back edge leads onward in the forward order, or it closes a cycle of edges
none of which is a back edge: such edges lead from its target to its source
along the order.  So if there is any numbering of the nodes that grows along
all edges that are no back edges, the forward order grows along all of them
too. -/
theorem forwardOrder_onward {method : Option MethodRef} {code : List Instruction}
    {regions : List Region} {config : Config} {c : Cfg}
    (hbuild : build method code regions config = .ok c) :
    (∀ s t, t ∈ c.view.succ s → (s, t) ∉ c.view.backEdges c.dominators →
      (∃ i j, c.forwardIndex? s = some i ∧ c.forwardIndex? t = some j ∧ i < j) ∨
      ∃ path, (c.view.onward c.dominators).Path t s path ∧ path.Sublist c.forwardOrder) ∧
    ((∃ rank : NodeId → Nat, ∀ s t, t ∈ c.view.succ s →
        (s, t) ∉ c.view.backEdges c.dominators → rank s < rank t) →
      ∀ s t, t ∈ c.view.succ s → (s, t) ∉ c.view.backEdges c.dominators →
        ∃ i j, c.forwardIndex? s = some i ∧ c.forwardIndex? t = some j ∧ i < j) := by
  have hc : c.Wired := build_wired hbuild
  have honward : ∀ s t, t ∈ c.view.succ s →
      (∃ i j, c.forwardIndex? s = some i ∧ c.forwardIndex? t = some j ∧ i < j) ∨
      ∃ path, (c.view.onward c.dominators).Path t s path ∧ path.Sublist c.forwardOrder := by
    intro s t hedge
    rcases onward_or_exists_path hc hedge with hlt | hpath
    · exact .inl ⟨_, _, forwardIndex?_of_lt (hc.linked.source_lt hedge),
        forwardIndex?_of_lt (hc.linked.target_lt hedge), hlt⟩
    · exact .inr hpath
  refine ⟨fun s t hedge _ => honward s t hedge, ?_⟩
  rintro ⟨rank, hrank⟩ s t hedge hback
  have hgrows : ∀ a b, b ∈ (c.view.onward c.dominators).succ a → rank a < rank b := by
    intro a b hab
    obtain ⟨hab, hdom⟩ := View.mem_succ_onward.1 hab
    refine hrank a b hab fun hmem => ?_
    rw [((View.mem_backEdges hc.linked).1 hmem).2] at hdom
    exact absurd hdom (by decide)
  refine (honward s t hedge).resolve_right ?_
  rintro ⟨path, hpath, -⟩
  have hlt := hrank s t hedge hback
  have hle := View.le_of_path hgrows hpath
  omega

/-- A loop of two blocks, each of which the first branch can enter. -/
def twoEntries : List Instruction :=
  [⟨0, .branch .conditional 2⟩, ⟨1, .nop⟩, ⟨2, .branch .conditional 1⟩, ⟨3, .return none⟩]

/-- The graph of the loop with two entries. -/
def twoEntriesGraph : Cfg := ⟨none, (Layout.of twoEntries []).graph .default⟩

private theorem accepted_twoEntries : build none twoEntries [] .default = .ok twoEntriesGraph :=
  build_eq_ok_iff.2 ⟨by decide, rfl⟩

private theorem edge_twoEntries :
    3 ∈ twoEntriesGraph.view.succ 4 ∧
      twoEntriesGraph.view.backEdges twoEntriesGraph.dominators = [] := by
  decide +kernel

private theorem indices_twoEntries :
    twoEntriesGraph.forwardIndex? 4 = some 5 ∧ twoEntriesGraph.forwardIndex? 3 = some 2 := by
  decide +kernel

private theorem not_onward_twoEntries :
    ¬ ∃ i j, twoEntriesGraph.forwardIndex? 4 = some i ∧ twoEntriesGraph.forwardIndex? 3 = some j ∧
      i < j := by
  rintro ⟨i, j, hi, hj, hlt⟩
  rw [indices_twoEntries.1, Option.some.injEq] at hi
  rw [indices_twoEntries.2, Option.some.injEq] at hj
  omega

/-- The edge from node 4 to node 3 does not lead onward, but its end leads back
to its source by edges that are no back edges.  In the loop with a jump into
its middle, some numbering grows along all edges but the back edge, so the
forward order does too, also along the jump from node 5 to node 4. -/
theorem forwardOrder_onward_twoEntries :
    (∃ path, (twoEntriesGraph.view.onward twoEntriesGraph.dominators).Path 3 4 path ∧
      path.Sublist twoEntriesGraph.forwardOrder) ∧
    ∃ c, build none deadJump [] .default = .ok c ∧
      4 ∈ c.view.succ 5 ∧ (5, 4) ∉ c.view.backEdges c.dominators ∧
      ∃ i j, c.forwardIndex? 5 = some i ∧ c.forwardIndex? 4 = some j ∧ i < j := by
  have hback : (4, 3) ∉ twoEntriesGraph.view.backEdges twoEntriesGraph.dominators := by
    rw [edge_twoEntries.2]
    exact List.not_mem_nil
  let c : Cfg := ⟨none, (Layout.of deadJump []).graph .default⟩
  have hbuild : build none deadJump [] .default = .ok c := build_eq_ok_iff.2 ⟨by decide, rfl⟩
  have hjump : 4 ∈ c.view.succ 5 ∧ (5, 4) ∉ c.view.backEdges c.dominators := by decide +kernel
  -- The numbering of the nodes: the jump and the entry, the header, the rest.
  have hranks : ∀ s < c.view.size, ∀ t ∈ c.view.succ s,
      (s, t) ∉ c.view.backEdges c.dominators →
        [0, 4, 1, 3, 2, 0].getD s 0 < [0, 4, 1, 3, 2, 0].getD t 0 := by
    decide +kernel
  refine ⟨?_, c, hbuild, hjump.1, hjump.2, ?_⟩
  · exact ((forwardOrder_onward accepted_twoEntries).1 4 3 edge_twoEntries.1 hback).resolve_left
      not_onward_twoEntries
  · refine (forwardOrder_onward hbuild).2 ⟨fun n => [0, 4, 1, 3, 2, 0].getD n 0, ?_⟩ 5 4 hjump.1
      hjump.2
    intro s t hst
    exact hranks s ((build_wired hbuild).linked.source_lt hst) t hst

/-- **A loop with two entries is not ordered.**  Neither of its edges, from
node 3 to node 4 and back, is a back edge, and the one from node 4 to node 3
leads from the last node of the forward order to the third.  No order leads
onward along both. -/
theorem forwardOrder_inverts_twoEntries :
    build none twoEntries [] .default = .ok twoEntriesGraph ∧
      4 ∈ twoEntriesGraph.view.succ 3 ∧ 3 ∈ twoEntriesGraph.view.succ 4 ∧
      twoEntriesGraph.view.backEdges twoEntriesGraph.dominators = [] ∧
      twoEntriesGraph.forwardIndex? 4 = some 5 ∧ twoEntriesGraph.forwardIndex? 3 = some 2 ∧
      ¬ ∀ s t, t ∈ twoEntriesGraph.view.succ s →
        (s, t) ∉ twoEntriesGraph.view.backEdges twoEntriesGraph.dominators →
        ∃ i j, twoEntriesGraph.forwardIndex? s = some i ∧
          twoEntriesGraph.forwardIndex? t = some j ∧ i < j := by
  obtain ⟨hedge, hnone⟩ := edge_twoEntries
  refine ⟨accepted_twoEntries, by decide +kernel, hedge, hnone, indices_twoEntries.1,
    indices_twoEntries.2, fun hall => not_onward_twoEntries (hall 4 3 hedge ?_)⟩
  rw [hnone]
  exact List.not_mem_nil

end Cfg

end MethodFlow
