import Mathlib.Data.List.Chain
import Mathlib.Data.List.Nodup
import MethodFlow.Proofs.Graph.Order

/-!
# Edges that an order inverts

The nodes being visited make a path: each is a successor of the one visited
before it.  When a node is left, its successors have all been visited.  A
successor that has been left already stands behind the node in the order.  Any
other one is still being visited, and from there the nodes being visited lead
back to the node.  They stand in the order as they stand on the path, and
whatever is visited later is put between or around them.

So an edge either leads onward in the order, or a path along the order leads
from its target to its source.  On a graph without cycles there is no such
path, and all edges lead onward.

## Main results

* `View.Traced.leave`, `View.Traced.enter`: what the two steps of a search
  keep.
* `View.sublist_or_exists_path`: an edge leads onward, or a path along the
  order closes it to a cycle.
* `View.exists_path_along`: the first root reaches whatever it reaches by a
  path along the order.
-/

namespace MethodFlow

namespace View

variable {v : View} {s t n root : NodeId} {below : List Frame}
  {unvisited finished roots : List NodeId}

/-! ## Positions -/

/-- In a list without repetitions, what stands before a member has the smaller
position. -/
theorem idxOf_lt_of_sublist {order : List NodeId} (hnodup : order.Nodup)
    (h : [s, t].Sublist order) : order.idxOf s < order.idxOf t := by
  induction order with
  | nil => exact absurd (h.subset List.mem_cons_self) List.not_mem_nil
  | cons a rest ih =>
      obtain ⟨ha, hrest⟩ := List.nodup_cons.1 hnodup
      cases h with
      | cons _ h =>
          have hs : a ≠ s := fun hs => ha (hs ▸ h.subset List.mem_cons_self)
          have ht : a ≠ t := fun ht => ha (ht ▸ h.subset (by simp))
          rw [List.idxOf_cons_ne _ hs, List.idxOf_cons_ne _ ht]
          exact Nat.succ_lt_succ (ih hrest h)
      | cons_cons _ h =>
          have ht : s ≠ t := fun ht => ha (ht ▸ h.subset List.mem_cons_self)
          rw [List.idxOf_cons_self, List.idxOf_cons_ne _ ht]
          exact Nat.succ_pos _

/-- In a list without repetitions, looking for a member inverts looking at a
position. -/
theorem idxOf?_eq_some_iff {order : List NodeId} (hnodup : order.Nodup) {i : Nat} :
    order.idxOf? n = some i ↔ order[i]? = some n := by
  rw [List.idxOf?, List.findIdx?_eq_some_iff_getElem, List.getElem?_eq_some_iff]
  refine exists_congr fun hi => ?_
  rw [beq_iff_eq]
  refine and_iff_left_of_imp fun hn j hj hsame => ?_
  have heq : order[j] = order[i] := (beq_iff_eq.1 hsame).trans hn.symm
  exact Nat.ne_of_lt hj ((hnodup.getElem_inj_iff).1 heq)

theorem idxOf?_eq_idxOf {order : List NodeId} (hnodup : order.Nodup) (hn : n ∈ order) :
    order.idxOf? n = some (order.idxOf n) := by
  rw [idxOf?_eq_some_iff hnodup, List.getElem?_eq_getElem (List.idxOf_lt_length_of_mem hn),
    List.getElem_idxOf]

/-! ## What a search keeps -/

/-- A search under way: each node being visited is a successor of the one
below it, and a successor of a node that has been left stands behind it or
leads back to it along the line. -/
structure Traced (v : View) (stack : List Frame) (finished : List NodeId) : Prop where
  chain : (stack.map Frame.node).IsChain fun s p => s ∈ v.succ p
  closed : ∀ m ∈ finished, ∀ n ∈ v.succ m, [m, n].Sublist finished ∨
    ∃ path, v.Path n m path ∧ path.Sublist (lineOf stack finished)

/-- The nodes being visited lead to the innermost of them. -/
private theorem exists_path_of_chain {top : NodeId} {trail : List NodeId}
    (hchain : (top :: trail).IsChain fun s p => s ∈ v.succ p) (hn : n ∈ top :: trail) :
    ∃ path, v.Path n top path ∧ path.Sublist (top :: trail).reverse := by
  induction trail generalizing top with
  | nil =>
      rw [List.mem_singleton.1 hn]
      exact ⟨[top], .start, .refl _⟩
  | cons p rest ih =>
      obtain ⟨hedge, hrest⟩ := List.isChain_cons_cons.1 hchain
      rw [List.reverse_cons]
      rcases List.mem_cons.1 hn with rfl | hn
      · exact ⟨[n], .start, List.sublist_append_right _ _⟩
      · obtain ⟨path, hpath, hsub⟩ := ih hrest hn
        exact ⟨path ++ [top], hpath.step hedge, hsub.append (.refl _)⟩

/-- Leaving a node whose successors are used up. -/
theorem Traced.leave {f : Frame} (hv : v.Linked)
    (hwalk : Walking v.succ v.nodes roots unvisited (f :: below) finished)
    (h : v.Traced (f :: below) finished) (hskip : skipTo unvisited f.untried = []) :
    v.Traced below (f.node :: finished) where
  chain := h.chain.tail
  closed := by
    intro m hm n hn
    rw [lineOf_leave]
    rcases List.mem_cons.1 hm with rfl | hm
    · have hvisited : n ∉ unvisited := (hwalk.leave hskip).closed f.node List.mem_cons_self n hn
      have hnode : n ∈ v.nodes := List.mem_range.2 (hv.target_lt hn)
      have hline := (List.mem_append.1 (hwalk.perm.mem_iff.2 hnode)).resolve_left hvisited
      -- The successor is still being visited, or it has been left.
      rcases List.mem_append.1 hline with htrail | hleft
      · obtain ⟨path, hpath, hsub⟩ := exists_path_of_chain h.chain (List.mem_reverse.1 htrail)
        exact .inr ⟨path, hpath, hsub.trans (List.sublist_append_left _ _)⟩
      · exact .inl ((List.singleton_sublist.2 hleft).cons_cons f.node)
    · rcases h.closed m hm n hn with hsub | hpath
      · exact .inl (hsub.cons _)
      · exact .inr hpath

/-- Visiting the next successor of the innermost node. -/
theorem Traced.enter {f : Frame} {rest : List NodeId}
    (hwalk : Walking v.succ v.nodes roots unvisited (f :: below) finished)
    (h : v.Traced (f :: below) finished) (hskip : skipTo unvisited f.untried = s :: rest) :
    v.Traced (⟨s, v.succ s⟩ :: ⟨f.node, rest⟩ :: below) finished where
  chain := by
    have hmem : s ∈ skipTo unvisited f.untried := hskip ▸ List.mem_cons_self
    refine List.isChain_cons_cons.2 ⟨?_, h.chain⟩
    exact hwalk.untried f List.mem_cons_self s (mem_work_of_mem_skipTo hmem)
  closed := by
    intro m hm n hn
    -- The new node comes between the nodes being visited and those left.
    have hgrown : (lineOf (f :: below) finished).Sublist
        (lineOf (⟨s, v.succ s⟩ :: ⟨f.node, rest⟩ :: below) finished) := by
      simp [lineOf]
    rcases h.closed m hm n hn with hsub | ⟨path, hpath, hsub⟩
    · exact .inl hsub
    · exact .inr ⟨path, hpath, hsub.trans hgrown⟩

/-- Visiting one more root. -/
private theorem Traced.visit (hv : v.Linked) {t : Traversal} {r : NodeId}
    (hsearched : v.Searched roots t) (h : v.Traced [] t.finished) :
    v.Traced [] (t.visit v.succ r).finished := by
  unfold Traversal.visit
  split
  · next hr =>
    have hstart : v.Traced [⟨r, v.succ r⟩] t.finished := by
      refine ⟨.singleton r, fun m hm n hn => ?_⟩
      rcases h.closed m hm n hn with hsub | ⟨path, hpath, hsub⟩
      · exact .inl hsub
      · exact .inr ⟨path, hpath, hsub.cons r⟩
    have hdone := walk_keeps
      (P := fun unvisited stack finished =>
        Walking v.succ v.nodes (roots ++ [r]) unvisited stack finished ∧ v.Traced stack finished)
      (fun h hskip => ⟨h.1.leave hskip, h.2.leave hv h.1 hskip⟩)
      (fun h hskip => ⟨h.1.enter List.nodup_range hskip, h.2.enter h.1 hskip⟩)
      ⟨hsearched.start hr, hstart⟩
    exact hdone.2
  · exact h

theorem traced_reversePostorder (hv : v.Linked) (roots : List NodeId) :
    v.Traced [] (v.reversePostorder roots) := by
  refine foldl_visit_keeps (P := fun t => v.Traced [] t.finished) ?_ ?_ roots
  · exact ⟨.nil, fun m hm => absurd hm List.not_mem_nil⟩
  · exact fun hsearched h => h.visit hv hsearched

/-! ## The topological order -/

theorem nodup_topologicalOrder (v : View) : v.topologicalOrder.Nodup :=
  nodup_reversePostorder v _

/-- **Inversions close cycles.**  An edge leads onward in the topological
order, or a path that stands in the order leads from its target back to its
source. -/
theorem sublist_or_exists_path (hv : v.Linked) (hedge : t ∈ v.succ s) :
    [s, t].Sublist v.topologicalOrder ∨
      ∃ path, v.Path t s path ∧ path.Sublist v.topologicalOrder := by
  have hs : s ∈ v.topologicalOrder := mem_topologicalOrder.2 (hv.source_lt hedge)
  exact (traced_reversePostorder hv _).closed s hs t hedge

/-- What the first root reaches, it reaches by a path that stands in the
order and ends with the node. -/
theorem exists_path_along (hv : v.Linked) (hroot : root < v.size)
    (hfirst : [root] <+: v.sources ++ v.nodes) (hn : v.Reaches root n)
    {front back : List NodeId} (hsplit : v.topologicalOrder = front ++ n :: back) :
    ∃ path, v.Path root n path ∧ path.Sublist (front ++ [n]) := by
  -- The node that leads to `n` stands in front of it, so it has fewer nodes in front.
  induction hlen : front.length using Nat.strong_induction_on generalizing n front back with
  | _ k ih =>
      have hreached : v.ReachedFrom [root] n := ⟨root, List.mem_singleton_self _, hroot, hn⟩
      rcases exists_leader hv hfirst hsplit hreached with hself | ⟨p, hp, hpred, r, hr, -, hreach⟩
      · rw [List.mem_singleton.1 hself]
        exact ⟨[root], .start, List.sublist_append_right _ _⟩
      · rw [List.mem_singleton.1 hr] at hreach
        obtain ⟨before, between, rfl⟩ := List.append_of_mem hp
        rw [List.append_assoc, List.cons_append] at hsplit
        obtain ⟨path, hpath, hsub⟩ :=
          ih before.length (by simp [← hlen]) hreach hsplit rfl
        refine ⟨path ++ [n], hpath.step (hv.mem_pred.1 hpred), ?_⟩
        have hfront : path.Sublist (before ++ p :: between) :=
          hsub.trans ((List.Sublist.refl before).append (by simp))
        exact hfront.append (.refl [n])

end View

end MethodFlow
