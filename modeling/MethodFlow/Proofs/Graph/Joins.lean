import MethodFlow.Proofs.Graph.Converging
import MethodFlow.Proofs.Graph.Frontiers

/-!
# Joins and frontiers

In a graph that its root reaches throughout and nothing leads back to, the
iterated joins of a set that contains the root are its iterated frontier, so
dominance tells where paths converge.

* A node in the frontier of `x` is reached from `x` by nodes that `x`
  dominates, and from the root by nodes that it does not dominate: two paths
  that converge there.
* Along a path from a member of a set closed under frontiers, some member
  dominates the node reached so far: the latest one met.  If the members so
  found on two paths both dominate the common end strictly, one of them
  dominates the other, and then both paths pass the other.

## Main results

* `View.Rooted.converge_of_mem_frontier`: paths converge at the nodes of a
  frontier.
* `View.Rooted.mem_frontier_of_converge`: where paths from a closed set
  converge there is a frontier of the set.
* `View.Rooted.isLeast_joins`: the iterated frontier is the least set closed
  under joins.
-/

namespace MethodFlow

namespace View

variable {v : View} {root m u w x y z : Nat} {path xs ys : List NodeId} {S : Set NodeId}

/-! ## Joins behind a frontier -/

/-- A node that `x` does not strictly dominate is reached past `x`. -/
theorem exists_path_past (hz : v.Reaches root z) (hne : z ≠ root)
    (hnot : ¬ (x ≠ z ∧ v.Dominates root x z)) :
    ∃ q front, v.Path root q front ∧ z ∈ v.succ q ∧ x ∉ front := by
  by_cases hxz : x = z
  · subst hxz
    obtain ⟨path, hpath⟩ := hz
    rcases hpath.exists_arrival (X := {x}) (Ne.symm hne) with
      hmiss | ⟨r, rfl, -, q, front, hfront, hq, hall⟩
    · exact absurd rfl (hmiss x hpath.end_mem)
    · exact ⟨q, front, hfront, hq, fun hmem => (hall r hmem).2 rfl⟩
  · have hnone : ¬ v.Dominates root x z := fun hdom => hnot ⟨hxz, hdom⟩
    simp only [Dominates, Classical.not_forall] at hnone
    obtain ⟨path, hpath, hx⟩ := hnone
    cases hpath with
    | start => exact absurd rfl hne
    | @step q z front hfront hedge =>
        exact ⟨q, front, hfront, hedge, fun hmem => hx (List.mem_append_left _ hmem)⟩

/-- The root reaches every node, and nothing leads back to it. -/
structure Rooted (v : View) (root : NodeId) : Prop where
  linked : v.Linked
  root_lt : root < v.size
  reaches : ∀ n < v.size, v.Reaches root n
  not_to_root : ∀ {n : NodeId}, root ∉ v.succ n

namespace Rooted

/-- The frontier by paths. -/
theorem mem_frontier_iff (h : v.Rooted root) :
    z ∈ (Dominators.compute v root).frontier x ↔
      (∃ p, z ∈ v.succ p ∧ v.Dominates root x p) ∧ ¬ (x ≠ z ∧ v.Dominates root x z) := by
  have hcomputed : ∀ {n : Nat}, n < v.size →
      ((Dominators.compute v root).dominates x n = true ↔ v.Dominates root x n) := fun hn =>
    Dominators.dominates_iff h.linked h.root_lt (h.reaches _ hn)
  rw [Dominators.mem_frontier h.linked]
  constructor
  · rintro ⟨⟨p, hedge, hp⟩, hnot⟩
    rw [hcomputed (h.linked.source_lt hedge)] at hp
    rw [hcomputed (h.linked.target_lt hedge)] at hnot
    exact ⟨⟨p, hedge, hp⟩, hnot⟩
  · rintro ⟨⟨p, hedge, hp⟩, hnot⟩
    rw [← hcomputed (h.linked.source_lt hedge)] at hp
    rw [← hcomputed (h.linked.target_lt hedge)] at hnot
    exact ⟨⟨p, hedge, hp⟩, hnot⟩

/-- **Paths converge at the nodes of a frontier**: one from the node itself,
the other from the root. -/
theorem converge_of_mem_frontier (h : v.Rooted root)
    (hz : z ∈ (Dominators.compute v root).frontier x) :
    ∃ xs ys, v.Converge x root z xs ys := by
  obtain ⟨⟨p, hp, hdom⟩, hnot⟩ := h.mem_frontier_iff.1 hz
  have hne : z ≠ root := by
    rintro rfl
    exact h.not_to_root hp
  obtain ⟨q, back, hback, hq, hx⟩ :=
    exists_path_past (h.reaches z (h.linked.target_lt hp)) hne hnot
  obtain ⟨front, hfront, hall⟩ := hdom.exists_path (h.reaches p (h.linked.source_lt hp))
  refine ⟨front ++ [z], back ++ [z], converge_of_fronts hfront hp hback hq fun n hn hn' => ?_⟩
  exact hback.not_dominates hx hn' (hall n hn)

/-! ## Frontiers behind a join -/

/-- Along a path from a member of a set closed under frontiers, the latest
member met dominates the node reached so far. -/
private theorem exists_latest (h : v.Rooted root)
    (hS : ∀ n ∈ S, ∀ f ∈ (Dominators.compute v root).frontier n, f ∈ S) (hx : x ∈ S)
    (hpath : v.Path x m path) :
    ∃ u ∈ S, v.Dominates root u m ∧
      ∃ back, v.Path u m back ∧ ∀ n ∈ back, n ∈ path := by
  induction hpath with
  | start => exact ⟨x, hx, .refl v root x, [x], .start, fun n hn => hn⟩
  | @step b c path hpath hedge ih =>
      obtain ⟨u, hu, hdom, back, hback, hsub⟩ := ih
      by_cases hstrict : u ≠ c ∧ v.Dominates root u c
      · refine ⟨u, hu, hstrict.2, back ++ [c], hback.step hedge, fun n hn => ?_⟩
        rcases List.mem_append.1 hn with hn | hn
        · exact List.mem_append_left _ (hsub n hn)
        · exact List.mem_append_right _ hn
      · -- The edge leaves what `u` dominates, so its target is the next member.
        have hc : c ∈ S := hS u hu c (h.mem_frontier_iff.2 ⟨⟨b, hedge, hdom⟩, hstrict⟩)
        refine ⟨c, hc, .refl v root c, [c], .start, fun n hn => ?_⟩
        exact List.mem_append_right _ hn

/-- A path past a strict dominator of its end begins at a node that does not
dominate this dominator: from such a node the root could reach the end past
it. -/
private theorem not_dominates_past (hpath : v.Path u m path) (hedge : z ∈ v.succ m)
    (hz : v.Reaches root z) (hw : v.Dominates root w z) (hne : w ≠ z) (hmiss : w ∉ path) :
    ¬ v.Dominates root u w := by
  intro hdom
  have huw : u ≠ w := by
    rintro rfl
    exact hmiss hpath.start_mem
  have hnot : ¬ v.Dominates root w u := fun hwu => huw (hdom.antisymm hwu (hw.reaches hz))
  simp only [Dominates, Classical.not_forall] at hnot
  obtain ⟨front, hfront, hfree⟩ := hnot
  obtain ⟨whole, hwhole, hsub⟩ := hfront.trans hpath
  exact (hsub w (hw.pred hne hedge whole hwhole)).elim hfree hmiss

/-- Where paths converge from a set closed under frontiers, there is a
frontier of the set. -/
theorem mem_frontier_of_converge (h : v.Rooted root)
    (hS : ∀ n ∈ S, ∀ f ∈ (Dominators.compute v root).frontier n, f ∈ S)
    (hx : x ∈ S) (hy : y ∈ S) (hjoin : v.Converge x y z xs ys) :
    ∃ n ∈ S, z ∈ (Dominators.compute v root).frontier n := by
  obtain ⟨p, q, front, back, hfront, hp, hback, hq, hapart⟩ := hjoin.exists_fronts
  obtain ⟨u, hu, hup, left, hleft, hleftsub⟩ := h.exists_latest hS hx hfront
  obtain ⟨w, hw, hwq, right, hright, hrightsub⟩ := h.exists_latest hS hy hback
  by_cases hustrict : u ≠ z ∧ v.Dominates root u z
  · by_cases hwstrict : w ≠ z ∧ v.Dominates root w z
    · -- One of them would dominate the other, whose path does not pass it.
      have hz := h.reaches z (h.linked.target_lt hp)
      have huright : u ∉ right := fun hmem =>
        hapart u (hleftsub u hleft.start_mem) (hrightsub u hmem)
      have hwleft : w ∉ left := fun hmem =>
        hapart w (hleftsub w hmem) (hrightsub w hright.start_mem)
      rcases hustrict.2.total hwstrict.2 hz with huw | hwu
      · exact absurd huw (not_dominates_past hleft hp hz hwstrict.2 hwstrict.1 hwleft)
      · exact absurd hwu (not_dominates_past hright hq hz hustrict.2 hustrict.1 huright)
    · exact ⟨w, hw, h.mem_frontier_iff.2 ⟨⟨q, hq, hwq⟩, hwstrict⟩⟩
  · exact ⟨u, hu, h.mem_frontier_iff.2 ⟨⟨p, hp, hup⟩, hustrict⟩⟩

/-- The frontier of the root is empty: it dominates everything, and nothing
leads back to it. -/
theorem not_mem_frontier_root (h : v.Rooted root) :
    z ∉ (Dominators.compute v root).frontier root := by
  intro hz
  obtain ⟨⟨p, hp, -⟩, hnot⟩ := h.mem_frontier_iff.1 hz
  have hroot : root = z := by
    by_contra hne
    exact hnot ⟨hne, v.root_dominates root z⟩
  exact h.not_to_root (hroot ▸ hp)

/-! ## Iterated joins -/

/-- **Iterated joins are iterated frontiers.**  From nodes that include the
root, the iterated frontier is the least set that contains every node where
paths converge from two of the given nodes or of its own members. -/
theorem isLeast_joins (h : v.Rooted root) {defs : List NodeId} (hdefs : root ∈ defs) :
    IsLeast {T : Set NodeId | v.JoinClosed {n | n ∈ defs} T}
      {n | n ∈ (Dominators.compute v root).iteratedFrontier defs} := by
  have hclosed : (Dominators.compute v root).FrontierClosed {n | n ∈ defs}
      {n | n ∈ (Dominators.compute v root).iteratedFrontier defs} :=
    Dominators.frontierClosed_iteratedFrontier h.linked defs
  constructor
  · intro x y z xs ys hx hy hjoin
    obtain ⟨n, hn, hz⟩ := h.mem_frontier_of_converge
      (fun n hn f hf => .inr (hclosed n hn f hf)) hx hy hjoin
    exact hclosed n hn z hz
  · intro T hT
    refine (Dominators.isLeast_iteratedFrontier h.linked defs).2 ?_
    intro x hx z hz
    obtain ⟨xs, ys, hjoin⟩ := h.converge_of_mem_frontier hz
    exact hT (hx.imp_left And.left) (.inl hdefs) hjoin

end Rooted

end View

end MethodFlow
