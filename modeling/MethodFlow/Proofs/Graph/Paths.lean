import Mathlib.Tactic.ByContra
import MethodFlow.Proofs.Graph.Digraph
import MethodFlow.Proofs.Graph.Search

/-!
# Paths and dominance by paths

A path lists the nodes that it passes, both ends included, and grows at its
end.  A node dominates another from a root when every path from the root to
the second lists the first.  This is the relation that the computation of
dominators is measured against, so it says nothing about sets, sweeps or
trees.

On the nodes that the root reaches, dominance is a partial order, and the
dominators of one node are all comparable.  Both facts are proved by growing
a path one node at a time and asking which of the nodes in question it can
already have met.

## Main results

* `View.Dominates.antisymm`: different nodes do not dominate each other.
* `View.Dominates.total`: of two dominators of a node one dominates the
  other.
* `View.reachIn_nodes_iff`: a search inside the nodes of a linked view finds
  what paths reach.
-/

namespace MethodFlow

namespace View

variable {v : View} {root a b c : Nat} {path : List NodeId}

/-- `v.Path a b path`: the nodes of `path` lead from `a` to `b` along edges. -/
inductive Path (v : View) (a : NodeId) : NodeId → List NodeId → Prop where
  | start : Path v a a [a]
  | step {b c : NodeId} {path : List NodeId} (hpath : Path v a b path)
      (hedge : c ∈ v.succ b) : Path v a c (path ++ [c])

/-- Some path leads from `a` to `b`. -/
def Reaches (v : View) (a b : NodeId) : Prop := ∃ path, v.Path a b path

/-- Every path from the root to `b` passes `a`. -/
def Dominates (v : View) (root a b : NodeId) : Prop :=
  ∀ path, v.Path root b path → a ∈ path

theorem Path.start_mem (h : v.Path a b path) : a ∈ path := by
  induction h with
  | start => exact List.mem_singleton_self a
  | step _ _ ih => exact List.mem_append_left _ ih

theorem Path.end_mem (h : v.Path a b path) : b ∈ path := by
  cases h with
  | start => exact List.mem_singleton_self a
  | step _ _ => exact List.mem_append_right _ (List.mem_singleton_self b)

/-- A node on a path is reached by a path that passes no other nodes. -/
theorem Path.cut (h : v.Path a b path) (hc : c ∈ path) :
    ∃ front, v.Path a c front ∧ ∀ n ∈ front, n ∈ path := by
  induction h with
  | start =>
      rw [List.mem_singleton.1 hc]
      exact ⟨[a], .start, fun n hn => hn⟩
  | @step b e path hpath hedge ih =>
      rcases List.mem_append.1 hc with hc | hc
      · obtain ⟨front, hfront, hsub⟩ := ih hc
        exact ⟨front, hfront, fun n hn => List.mem_append_left _ (hsub n hn)⟩
      · rw [List.mem_singleton.1 hc]
        exact ⟨path ++ [e], .step hpath hedge, fun n hn => hn⟩

theorem Path.cons (hedge : b ∈ v.succ a) (h : v.Path b c path) : v.Path a c (a :: path) := by
  induction h with
  | start => exact .step .start hedge
  | step _ hnext ih => exact ih.step hnext

/-- Two paths, the second from the end of the first, make one that passes no
other nodes. -/
theorem Path.trans {front back : List NodeId} (h : v.Path a b front) (h' : v.Path b c back) :
    ∃ path, v.Path a c path ∧ ∀ n ∈ path, n ∈ front ∨ n ∈ back := by
  induction h' with
  | start => exact ⟨front, h, fun n hn => .inl hn⟩
  | @step m c back _ hedge ih =>
      obtain ⟨path, hpath, hsub⟩ := ih
      refine ⟨path ++ [c], hpath.step hedge, fun n hn => ?_⟩
      rcases List.mem_append.1 hn with hn | hn
      · exact (hsub n hn).imp_right (List.mem_append_left [c])
      · exact .inr (List.mem_append_right back hn)

theorem Reaches.refl (v : View) (a : NodeId) : v.Reaches a a := ⟨[a], .start⟩

theorem Reaches.step (h : v.Reaches a b) (hedge : c ∈ v.succ b) : v.Reaches a c := by
  obtain ⟨path, hpath⟩ := h
  exact ⟨path ++ [c], hpath.step hedge⟩

theorem Reaches.trans (h : v.Reaches a b) (h' : v.Reaches b c) : v.Reaches a c := by
  obtain ⟨front, hfront⟩ := h
  obtain ⟨back, hback⟩ := h'
  obtain ⟨path, hpath, -⟩ := hfront.trans hback
  exact ⟨path, hpath⟩

theorem Reaches.of_mem_path (h : v.Path a b path) (hc : c ∈ path) : v.Reaches a c := by
  obtain ⟨front, hfront, -⟩ := h.cut hc
  exact ⟨front, hfront⟩

theorem Reaches.lt_size (hv : v.Linked) (h : v.Reaches a b) (ha : a < v.size) :
    b < v.size := by
  obtain ⟨path, hpath⟩ := h
  cases hpath with
  | start => exact ha
  | step _ hedge => exact hv.target_lt hedge

/-- A search inside the nodes of a linked view finds what paths reach. -/
theorem reachIn_nodes_iff (hv : v.Linked) :
    ReachIn v.succ v.nodes [a] b ↔ a < v.size ∧ v.Reaches a b := by
  constructor
  · intro h
    induction h with
    | root hpending hwork =>
        rw [List.mem_singleton.1 hwork] at hpending ⊢
        exact ⟨List.mem_range.1 hpending, .refl v a⟩
    | step _ _ hnext ih => exact ⟨ih.1, ih.2.step hnext⟩
  · rintro ⟨ha, path, hpath⟩
    induction hpath with
    | start => exact .root (List.mem_range.2 ha) (List.mem_singleton_self a)
    | step _ hedge ih => exact .step ih (List.mem_range.2 (hv.target_lt hedge)) hedge

/-! ## Dominance is a partial order -/

theorem Dominates.refl (v : View) (root a : NodeId) : v.Dominates root a a :=
  fun _ hpath => hpath.end_mem

theorem root_dominates (v : View) (root a : NodeId) : v.Dominates root root a :=
  fun _ hpath => hpath.start_mem

theorem Dominates.trans (hab : v.Dominates root a b) (hbc : v.Dominates root b c) :
    v.Dominates root a c := by
  intro path hpath
  obtain ⟨front, hfront, hsub⟩ := hpath.cut (hbc path hpath)
  exact hsub a (hab front hfront)

theorem Dominates.reaches (h : v.Dominates root a b) (hb : v.Reaches root b) :
    v.Reaches root a := by
  obtain ⟨path, hpath⟩ := hb
  exact .of_mem_path hpath (h path hpath)

/-- A node that dominates another one dominates what leads there. -/
theorem Dominates.pred (h : v.Dominates root a c) (hne : a ≠ c) (hedge : c ∈ v.succ b) :
    v.Dominates root a b := by
  intro path hpath
  have hmem := h _ (hpath.step hedge)
  rcases List.mem_append.1 hmem with hmem | hmem
  · exact hmem
  · exact absurd (List.mem_singleton.1 hmem) hne

theorem Dominates.eq_root (h : v.Dominates root a root) : a = root :=
  List.mem_singleton.1 (h [root] .start)

/-- A node that dominates another one leads there by nodes that it
dominates. -/
theorem Dominates.exists_path (h : v.Dominates root a b) (hb : v.Reaches root b) :
    ∃ path, v.Path a b path ∧ ∀ n ∈ path, v.Dominates root a n := by
  obtain ⟨path, hpath⟩ := hb
  have hself : ∃ path, v.Path a a path ∧ ∀ n ∈ path, v.Dominates root a n :=
    ⟨[a], .start, fun n hn => List.mem_singleton.1 hn ▸ .refl v root a⟩
  induction hpath with
  | start =>
      obtain rfl := h.eq_root
      exact hself
  | @step m b path _ hedge ih =>
      by_cases hab : a = b
      · rw [← hab]
        exact hself
      · obtain ⟨back, hback, hall⟩ := ih (h.pred hab hedge)
        refine ⟨back ++ [b], hback.step hedge, fun n hn => ?_⟩
        rcases List.mem_append.1 hn with hn | hn
        · exact hall n hn
        · rw [List.mem_singleton.1 hn]
          exact h

/-- A node off a path from the root dominates nothing on it. -/
theorem Path.not_dominates (h : v.Path root b path) (ha : a ∉ path) (hc : c ∈ path) :
    ¬ v.Dominates root a c := by
  intro hdom
  obtain ⟨front, hfront, hsub⟩ := h.cut hc
  exact ha (hsub a (hdom front hfront))

/-- Different nodes do not dominate each other: no path can meet one of
them first. -/
theorem Dominates.antisymm (hab : v.Dominates root a b) (hba : v.Dominates root b a)
    (hreach : v.Reaches root b) : a = b := by
  by_contra hne
  have hnever : ∀ {n path}, v.Path root n path → a ∉ path ∧ b ∉ path := by
    intro n path hpath
    induction hpath with
    | start =>
        simp only [List.mem_singleton]
        constructor
        · rintro rfl
          exact hne hba.eq_root.symm
        · rintro rfl
          exact hne hab.eq_root
    | @step m n path hpath hedge ih =>
        have hgrown := hpath.step hedge
        simp only [List.mem_append, List.mem_singleton, not_or]
        refine ⟨⟨ih.1, ?_⟩, ⟨ih.2, ?_⟩⟩
        · rintro rfl
          rcases List.mem_append.1 (hba _ hgrown) with hmem | hmem
          · exact ih.2 hmem
          · exact hne (List.mem_singleton.1 hmem).symm
        · rintro rfl
          rcases List.mem_append.1 (hab _ hgrown) with hmem | hmem
          · exact ih.1 hmem
          · exact hne (List.mem_singleton.1 hmem)
  obtain ⟨path, hpath⟩ := hreach
  exact (hnever hpath).2 hpath.end_mem

/-- Of two dominators of a node one dominates the other: otherwise each is
reached past the other, and a path to the node can be chosen that misses
one of them. -/
theorem Dominates.total (hac : v.Dominates root a c) (hbc : v.Dominates root b c)
    (hreach : v.Reaches root c) : v.Dominates root a b ∨ v.Dominates root b a := by
  by_contra hnone
  simp only [Dominates, not_or, Classical.not_forall] at hnone
  obtain ⟨⟨toB, htoB, haB⟩, ⟨toA, htoA, hbA⟩⟩ := hnone
  have hmiss : ∀ {n path}, v.Path root n path →
      ∃ other, v.Path root n other ∧ (a ∉ other ∨ b ∉ other) := by
    intro n path hpath
    induction hpath with
    | start =>
        by_cases ha : a = root
        · refine ⟨[root], .start, .inr fun hb => hbA ?_⟩
          rw [List.mem_singleton.1 hb]
          exact htoA.start_mem
        · exact ⟨[root], .start, .inl fun h => ha (List.mem_singleton.1 h)⟩
    | @step m n path _ hedge ih =>
        by_cases hna : n = a
        · exact ⟨toA, hna ▸ htoA, .inr hbA⟩
        by_cases hnb : n = b
        · exact ⟨toB, hnb ▸ htoB, .inl haB⟩
        obtain ⟨other, hother, hmiss⟩ := ih
        refine ⟨other ++ [n], hother.step hedge, ?_⟩
        simp only [List.mem_append, List.mem_singleton, not_or]
        rcases hmiss with ha | hb
        · exact .inl ⟨ha, fun h => hna h.symm⟩
        · exact .inr ⟨hb, fun h => hnb h.symm⟩
  obtain ⟨path, hpath⟩ := hreach
  obtain ⟨other, hother, ha | hb⟩ := hmiss hpath
  · exact ha (hac other hother)
  · exact hb (hbc other hother)

end View

end MethodFlow
