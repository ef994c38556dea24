import Mathlib.Data.List.Perm.Subperm
import MethodFlow.Proofs.Graph.Dominance

/-!
# The dominator tree and the frontiers

The strict dominators of a node are comparable, so one of them is dominated by
all others: the closest one.  The computation does not look for it by
comparing.  It counts dominators and takes the strict dominator that has one
less than the node, which can only be the closest one: a strict dominator of
the closest one has fewer still.

The same count shows that the closest dominators make a tree, since it falls
along every step towards the root.

The iterated frontier is a search, so membership in it is `ReachIn`.  What
placing phi nodes needs of it is that it contains the frontier of every node
it starts from and of every node it contains.

## Main results

* `Dominators.idom?_closest`, `Dominators.exists_idom?`: a node that the root
  reaches, other than the root, has a parent, its closest strict dominator.
* `Dominators.idom?_induction`: induction from parents to children.
* `Dominators.mem_frontier`, `Dominators.mem_iteratedFrontier`: what the
  frontiers hold.
-/

namespace MethodFlow

namespace View

variable {v : View} {root a n p : Nat}

/-- `p` is the strict dominator of `n` that all its strict dominators
dominate. -/
structure Closest (v : View) (root p n : NodeId) : Prop where
  dominates : v.Dominates root p n
  ne : p ≠ n
  least : ∀ {a : NodeId}, v.Dominates root a n → a ≠ n → v.Dominates root a p

/-- Among dominators of one node some node is dominated by all others. -/
private theorem exists_lowest (hn : v.Reaches root n) (l : List Nat) (hne : l ≠ [])
    (hl : ∀ a ∈ l, v.Dominates root a n) :
    ∃ p ∈ l, ∀ a ∈ l, v.Dominates root a p := by
  induction l with
  | nil => exact absurd rfl hne
  | cons b rest ih =>
      by_cases hrest : rest = []
      · subst hrest
        refine ⟨b, List.mem_cons_self, fun a ha => ?_⟩
        rw [List.mem_singleton.1 ha]
        exact .refl v root b
      · obtain ⟨p, hp, hlow⟩ := ih hrest fun a ha => hl a (List.mem_cons_of_mem b ha)
        have hpn := hl p (List.mem_cons_of_mem b hp)
        rcases (hl b List.mem_cons_self).total hpn hn with hbp | hpb
        · refine ⟨p, List.mem_cons_of_mem b hp, fun a ha => ?_⟩
          rcases List.mem_cons.1 ha with rfl | ha
          · exact hbp
          · exact hlow a ha
        · refine ⟨b, List.mem_cons_self, fun a ha => ?_⟩
          rcases List.mem_cons.1 ha with rfl | ha
          · exact .refl v root a
          · exact (hlow a ha).trans hpb

end View

namespace Dominators

variable {v : View} {root a b f n p : Nat} {defs : List NodeId}

theorem strictlyDominates_iff {d : Dominators} :
    d.strictlyDominates a b = true ↔ a ≠ b ∧ d.dominates a b = true := by
  simp [strictlyDominates]

/-! ## Counting dominators -/

/-- The number of dominators of a node. -/
def depth (d : Dominators) (n : NodeId) : Nat := (d.sets.map BitSet.count).getD n 0

/-- The dominators of a node as a list. -/
private theorem exists_dominators (hv : v.Linked) (root : NodeId) (hn : n < v.size) :
    ∃ l : List Nat, l.Nodup ∧ (compute v root).depth n = l.length ∧
      ∀ a, a ∈ l ↔ (compute v root).dominates a n = true := by
  obtain ⟨s, hs⟩ := (kept_compute hv root).exists_set hn
  refine ⟨s.toList, s.nodup_toList, ?_, fun a => ?_⟩
  · simp [depth, Array.getD_eq_getD_getElem?, hs, BitSet.count]
  · rw [BitSet.mem_toList, dominates, among_iff]
    constructor
    · exact fun ha => ⟨s, hs, ha⟩
    · rintro ⟨s', hs', ha⟩
      rw [hs] at hs'
      cases hs'
      exact ha

/-- A strict dominator has fewer dominators. -/
theorem depth_lt (hv : v.Linked) (hroot : root < v.size) (hb : v.Reaches root b)
    (hdom : v.Dominates root a b) (hne : a ≠ b) :
    (compute v root).depth a < (compute v root).depth b := by
  have ha := hdom.reaches hb
  obtain ⟨la, hnodup, hla, hmema⟩ := exists_dominators hv root (ha.lt_size hv hroot)
  obtain ⟨lb, -, hlb, hmemb⟩ := exists_dominators hv root (hb.lt_size hv hroot)
  have hnot : b ∉ la := by
    rw [hmema, dominates_iff hv hroot ha]
    exact fun hba => hne (hdom.antisymm hba hb)
  have hsub : b :: la ⊆ lb := by
    intro c hc
    rw [hmemb, dominates_iff hv hroot hb]
    rcases List.mem_cons.1 hc with rfl | hc
    · exact .refl v root c
    · exact ((dominates_iff hv hroot ha).1 ((hmema c).1 hc)).trans hdom
  have hlen := ((List.nodup_cons.2 ⟨hnot, hnodup⟩).subperm hsub).length_le
  rw [List.length_cons] at hlen
  omega

theorem depth_closest (hv : v.Linked) (hroot : root < v.size) (hn : v.Reaches root n)
    (hp : v.Closest root p n) :
    (compute v root).depth p + 1 = (compute v root).depth n := by
  have hlt := depth_lt hv hroot hn hp.dominates hp.ne
  have hreach := hp.dominates.reaches hn
  obtain ⟨lp, -, hlp, hmemp⟩ := exists_dominators hv root (hreach.lt_size hv hroot)
  obtain ⟨ln, hnodup, hln, hmemn⟩ := exists_dominators hv root (hn.lt_size hv hroot)
  have hsub : ln ⊆ n :: lp := by
    intro c hc
    by_cases hcn : c = n
    · exact hcn ▸ List.mem_cons_self
    · have hdom := (dominates_iff hv hroot hn).1 ((hmemn c).1 hc)
      exact List.mem_cons_of_mem n
        ((hmemp c).2 ((dominates_iff hv hroot hreach).2 (hp.least hdom hcn)))
  have hlen := (hnodup.subperm hsub).length_le
  rw [List.length_cons] at hlen
  omega

/-! ## The closest dominator -/

theorem exists_closest (hv : v.Linked) (hroot : root < v.size) (hn : v.Reaches root n)
    (hne : n ≠ root) : ∃ p, v.Closest root p n := by
  obtain ⟨l, -, -, hmem⟩ := exists_dominators hv root (hn.lt_size hv hroot)
  have hstrict : ∀ a, a ∈ l.filter (· ≠ n) ↔ v.Dominates root a n ∧ a ≠ n := by
    intro a
    rw [List.mem_filter, hmem, dominates_iff hv hroot hn, decide_eq_true_eq]
  have hsome : root ∈ l.filter (· ≠ n) :=
    (hstrict root).2 ⟨v.root_dominates root n, hne.symm⟩
  obtain ⟨p, hp, hlow⟩ := View.exists_lowest hn (l.filter (· ≠ n))
    (List.ne_nil_of_mem hsome) fun a ha => ((hstrict a).1 ha).1
  obtain ⟨hdom, hpn⟩ := (hstrict p).1 hp
  exact ⟨p, hdom, hpn, fun ha hane => hlow _ ((hstrict _).2 ⟨ha, hane⟩)⟩

private theorem idom?_eq_find? {s : BitSet} (hs : (compute v root).sets[n]? = some s) :
    (compute v root).idom? n = s.toList.find? fun p =>
      p ≠ n && (compute v root).depth p + 1 == (compute v root).depth n := by
  have hidoms : (compute v root).idoms = immediate (compute v root).sets := rfl
  rw [idom?, hidoms, immediate, Array.getElem?_mapIdx, hs]
  rfl

/-- A parent is a strict dominator with one dominator less. -/
theorem idom?_spec (h : (compute v root).idom? n = some p) :
    (compute v root).dominates p n = true ∧ p ≠ n ∧
      (compute v root).depth p + 1 = (compute v root).depth n := by
  cases hs : (compute v root).sets[n]? with
  | none =>
      have hidoms : (compute v root).idoms = immediate (compute v root).sets := rfl
      rw [idom?, hidoms, immediate, Array.getElem?_mapIdx, hs] at h
      cases h
  | some s =>
      rw [idom?_eq_find? hs] at h
      have hmem := BitSet.mem_toList.1 (List.mem_of_find?_eq_some h)
      have htest := List.find?_some h
      simp only [ne_eq, decide_not, Bool.and_eq_true, Bool.not_eq_true',
        decide_eq_false_iff_not, beq_iff_eq] at htest
      exact ⟨among_iff.2 ⟨s, hs, hmem⟩, htest⟩

/-- The parents make a forest: what passes from a parent to its children holds
of every node, if it holds where there is no parent. -/
theorem idom?_induction (v : View) (root : NodeId) {motive : Nat → Prop}
    (node : ∀ n, (∀ p, (compute v root).idom? n = some p → motive p) → motive n) (n : Nat) :
    motive n := by
  induction hdepth : (compute v root).depth n using Nat.strongRecOn generalizing n with
  | ind depth ih =>
      refine node n fun p hp => ih _ ?_ p rfl
      have hparent := (idom?_spec hp).2.2
      omega

theorem idom?_lt (hv : v.Linked) (h : (compute v root).idom? n = some p) :
    p < v.size ∧ n < v.size :=
  (kept_compute hv root).lt_of_among (idom?_spec h).1

theorem idom?_root (hv : v.Linked) (hroot : root < v.size) :
    (compute v root).idom? root = none := by
  cases h : (compute v root).idom? root with
  | none => rfl
  | some p =>
      obtain ⟨hdom, hne, -⟩ := idom?_spec h
      exact absurd ((dominates_iff hv hroot (.refl v root)).1 hdom).eq_root hne

/-- Only nodes that the root reaches have a parent. -/
theorem reaches_of_idom? (hv : v.Linked) (h : (compute v root).idom? n = some p) :
    v.Reaches root n := by
  by_contra hunreached
  obtain ⟨hdom, hne, -⟩ := idom?_spec h
  exact hne ((dominates_iff_of_unreached hv (idom?_lt hv h).2 fun hn => hunreached hn.2).1 hdom)

/-- A parent of a node that the root reaches is its closest strict
dominator. -/
theorem idom?_closest (hv : v.Linked) (hroot : root < v.size) (hn : v.Reaches root n)
    (h : (compute v root).idom? n = some p) : v.Closest root p n := by
  obtain ⟨hamong, hne, hdepth⟩ := idom?_spec h
  have hdom := (dominates_iff hv hroot hn).1 hamong
  have hnotroot : n ≠ root := by
    rintro rfl
    exact hne hdom.eq_root
  obtain ⟨q, hq⟩ := exists_closest hv hroot hn hnotroot
  have hqdepth := depth_closest hv hroot hn hq
  -- A strict dominator of the closest one would lie two levels below the node.
  have hpq : p = q := by
    by_contra hpq
    have hlt := depth_lt hv hroot (hq.dominates.reaches hn) (hq.least hdom hne) hpq
    omega
  exact hpq ▸ hq

theorem exists_idom? (hv : v.Linked) (hroot : root < v.size) (hn : v.Reaches root n)
    (hne : n ≠ root) : ∃ p, (compute v root).idom? n = some p := by
  obtain ⟨q, hq⟩ := exists_closest hv hroot hn hne
  obtain ⟨s, hs⟩ := (kept_compute hv root).exists_set (hn.lt_size hv hroot)
  obtain ⟨s', hs', hmem⟩ := among_iff.1 ((dominates_iff hv hroot hn).2 hq.dominates)
  rw [hs] at hs'
  cases hs'
  rw [← Option.isSome_iff_exists, idom?_eq_find? hs, List.find?_isSome]
  refine ⟨q, BitSet.mem_toList.2 hmem, ?_⟩
  simp [hq.ne, depth_closest hv hroot hn hq]

theorem mem_children (hv : v.Linked) :
    n ∈ (compute v root).children p ↔ (compute v root).idom? n = some p := by
  rw [children, List.mem_filter, beq_iff_eq, and_iff_right_iff_imp]
  intro h
  have hsize : (compute v root).idoms.size = v.size := by
    rw [← (kept_compute hv root).size_eq]
    exact Array.size_mapIdx
  rw [List.mem_range, hsize]
  exact (idom?_lt hv h).2

/-! ## Frontiers -/

/-- The frontier of a node: a predecessor is dominated, the node itself not
strictly. -/
theorem mem_frontier (hv : v.Linked) :
    f ∈ (compute v root).frontier n ↔
      (∃ p, f ∈ v.succ p ∧ (compute v root).dominates n p = true) ∧
        ¬ (n ≠ f ∧ (compute v root).dominates n f = true) := by
  have hfrontiers : (compute v root).frontiers =
      (Array.range v.size).map (frontierOf v (compute v root).sets) := rfl
  have hfilter : f ∈ frontierOf v (compute v root).sets n ↔
      (∃ p, f ∈ v.succ p ∧ (compute v root).dominates n p = true) ∧
        ¬ (n ≠ f ∧ (compute v root).dominates n f = true) := by
    simp only [frontierOf, View.nodes, List.mem_filter, List.mem_range, Bool.and_eq_true,
      List.any_eq_true, Bool.not_eq_true', Bool.eq_false_iff, ne_eq, decide_eq_true_eq,
      hv.mem_pred]
    constructor
    · rintro ⟨-, hpred, hnot⟩
      exact ⟨hpred, hnot⟩
    · rintro ⟨⟨p, hedge, hp⟩, hnot⟩
      exact ⟨hv.target_lt hedge, ⟨p, hedge, hp⟩, hnot⟩
  rw [frontier, hfrontiers, ← hfilter]
  by_cases hn : n < v.size
  · simp [Array.getD_eq_getD_getElem?, hn]
  · have hnone : f ∉ frontierOf v (compute v root).sets n := by
      rw [hfilter]
      rintro ⟨⟨p, -, hp⟩, -⟩
      exact hn ((kept_compute hv root).lt_of_among hp).1
    simp [Array.getD_eq_getD_getElem?, hn, hnone]

/-- Only nodes have a frontier. -/
theorem lt_of_mem_frontier (hv : v.Linked) (h : f ∈ (compute v root).frontier n) :
    n < v.size := by
  obtain ⟨⟨p, -, hp⟩, -⟩ := (mem_frontier hv).1 h
  exact ((kept_compute hv root).lt_of_among hp).1

theorem mem_iteratedFrontier (hv : v.Linked) :
    f ∈ (compute v root).iteratedFrontier defs ↔
      ∃ n, ReachIn (compute v root).frontier v.nodes defs n ∧
        f ∈ (compute v root).frontier n := by
  have hsize := (kept_compute hv root).size_eq
  have hempty : (BitSet.empty v.size).capacity = v.size := rfl
  rw [iteratedFrontier, hsize, BitSet.mem_toList, ← List.foldl_flatMap,
    BitSet.contains_foldl_add, BitSet.contains_empty, hempty, List.mem_flatMap]
  simp only [mem_explore, Bool.false_eq_true, false_or]
  refine and_iff_left_of_imp ?_
  rintro ⟨n, -, hf⟩
  obtain ⟨⟨p, hedge, -⟩, -⟩ := (mem_frontier hv).1 hf
  exact hv.target_lt hedge

theorem nodup_iteratedFrontier (d : Dominators) (defs : List NodeId) :
    (d.iteratedFrontier defs).Nodup :=
  BitSet.nodup_toList _

/-- The iterated frontier contains the frontiers of the nodes it starts
from. -/
theorem mem_iteratedFrontier_of_def (hv : v.Linked) (hn : n ∈ defs) (hlt : n < v.size)
    (hf : f ∈ (compute v root).frontier n) : f ∈ (compute v root).iteratedFrontier defs :=
  (mem_iteratedFrontier hv).2 ⟨n, .root (List.mem_range.2 hlt) hn, hf⟩

/-- The iterated frontier contains the frontiers of its members. -/
theorem mem_iteratedFrontier_of_mem (hv : v.Linked)
    (hn : n ∈ (compute v root).iteratedFrontier defs)
    (hf : f ∈ (compute v root).frontier n) : f ∈ (compute v root).iteratedFrontier defs := by
  obtain ⟨m, hreach, hm⟩ := (mem_iteratedFrontier hv).1 hn
  obtain ⟨⟨p, hedge, -⟩, -⟩ := (mem_frontier hv).1 hm
  exact (mem_iteratedFrontier hv).2
    ⟨n, .step hreach (List.mem_range.2 (hv.target_lt hedge)) hm, hf⟩

end Dominators

end MethodFlow
