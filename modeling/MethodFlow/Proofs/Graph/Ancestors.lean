import MethodFlow.Proofs.Graph.DominatorTree

/-!
# Ancestors in the dominator tree

Three answers describe one tree: the parent of a node, the children of a
node, and whether a node dominates another.  They are computed apart, the
parents by counting dominators, and agree because the closest strict
dominator is unique: whoever dominates a node is the node itself or dominates
its parent.  So the dominators of a node are met on the way up, and the way
up ends at the root, the only node without a parent that the root reaches.

## Main results

* `Dominators.idom?_eq_some_iff`: a parent is the closest strict dominator of
  a node that the root reaches.
* `Dominators.Lineage.mem_iff`: the way up from a node passes exactly its
  dominators.
* `Dominators.tree_exact`: parents, children and dominators of a graph and of
  its reverse.
-/

namespace MethodFlow

/-- Two closest strict dominators of one node dominate each other. -/
theorem View.Closest.unique {v : View} {root n p q : Nat} (hp : v.Closest root p n)
    (hq : v.Closest root q n) (hn : v.Reaches root n) : p = q :=
  (hq.least hp.dominates hp.ne).antisymm (hp.least hq.dominates hq.ne) (hq.dominates.reaches hn)

namespace Dominators

variable {v : View} {root a b p : Nat} {chain : List NodeId}

/-! ## Parents -/

theorem idom?_eq_some_iff (hv : v.Linked) (hroot : root < v.size) :
    (compute v root).idom? b = some p ↔ v.Reaches root b ∧ v.Closest root p b := by
  constructor
  · intro h
    have hb := reaches_of_idom? hv h
    exact ⟨hb, idom?_closest hv hroot hb h⟩
  · rintro ⟨hb, hp⟩
    have hne : b ≠ root := by
      rintro rfl
      exact hp.ne hp.dominates.eq_root
    obtain ⟨q, hq⟩ := exists_idom? hv hroot hb hne
    rw [hq, (idom?_closest hv hroot hb hq).unique hp hb]

/-- Only the root has no parent, of the nodes that it reaches. -/
theorem idom?_eq_none_iff (hv : v.Linked) (hroot : root < v.size) :
    (compute v root).idom? b = none ↔ b = root ∨ ¬ v.Reaches root b := by
  constructor
  · intro hnone
    by_contra hcon
    obtain ⟨hne, hb⟩ := not_or.1 hcon
    obtain ⟨p, hp⟩ := exists_idom? hv hroot (Classical.not_not.1 hb) hne
    rw [hnone] at hp
    cases hp
  · rintro (rfl | hb)
    · exact idom?_root hv hroot
    · cases hp : (compute v root).idom? b with
      | none => rfl
      | some p => exact absurd (reaches_of_idom? hv hp) hb

/-- The closest strict dominator in terms of the computed relation. -/
theorem closest_iff (hv : v.Linked) (hroot : root < v.size) (hb : v.Reaches root b) :
    v.Closest root p b ↔
      (compute v root).strictlyDominates p b = true ∧
        ∀ a, (compute v root).strictlyDominates a b = true →
          (compute v root).dominates a p = true := by
  simp only [strictlyDominates_iff, dominates_iff hv hroot hb]
  constructor
  · intro h
    refine ⟨⟨h.ne, h.dominates⟩, ?_⟩
    rintro a ⟨hne, ha⟩
    exact (dominates_iff hv hroot (h.dominates.reaches hb)).2 (h.least ha hne)
  · rintro ⟨⟨hne, hp⟩, hleast⟩
    exact ⟨hp, hne, fun ha hane =>
      (dominates_iff hv hroot (hp.reaches hb)).1 (hleast _ ⟨hane, ha⟩)⟩

theorem ascends_children (d : Dominators) (p : NodeId) : (d.children p).Pairwise (· < ·) :=
  List.pairwise_lt_range.filter _

/-! ## The way up -/

/-- `d.Lineage b chain`: the chain begins at `b`, goes from each node to its
parent and ends where there is none. -/
inductive Lineage (d : Dominators) : NodeId → List NodeId → Prop where
  | top {b : NodeId} (htop : d.idom? b = none) : Lineage d b [b]
  | up {b p : NodeId} {chain : List NodeId} (hparent : d.idom? b = some p)
      (hchain : Lineage d p chain) : Lineage d b (b :: chain)

theorem exists_lineage (v : View) (root b : NodeId) :
    ∃ chain, (compute v root).Lineage b chain := by
  induction b using idom?_induction v root with
  | node b ih =>
      cases hp : (compute v root).idom? b with
      | none => exact ⟨[b], .top hp⟩
      | some p =>
          obtain ⟨chain, hchain⟩ := ih p hp
          exact ⟨b :: chain, .up hp hchain⟩

/-- The way up passes exactly the dominators. -/
theorem Lineage.mem_iff (hv : v.Linked) (hroot : root < v.size) (hb : v.Reaches root b)
    (h : (compute v root).Lineage b chain) : a ∈ chain ↔ v.Dominates root a b := by
  induction h with
  | @top b htop =>
      have hbr : b = root :=
        ((idom?_eq_none_iff hv hroot).1 htop).resolve_right fun hnot => hnot hb
      subst hbr
      rw [List.mem_singleton]
      constructor
      · rintro rfl
        exact .refl v a a
      · exact View.Dominates.eq_root
  | @up b p chain hparent _ ih =>
      have hclosest := idom?_closest hv hroot hb hparent
      rw [List.mem_cons, ih (hclosest.dominates.reaches hb)]
      constructor
      · rintro (rfl | ha)
        · exact .refl v root a
        · exact ha.trans hclosest.dominates
      · intro ha
        by_cases hab : a = b
        · exact .inl hab
        · exact .inr (hclosest.least ha hab)

/-- The way up ends at the root. -/
theorem Lineage.getLast?_eq (hv : v.Linked) (hroot : root < v.size) (hb : v.Reaches root b)
    (h : (compute v root).Lineage b chain) : chain.getLast? = some root := by
  induction h with
  | @top b htop =>
      have hbr := ((idom?_eq_none_iff hv hroot).1 htop).resolve_right fun hnot => hnot hb
      rw [hbr, List.getLast?_singleton]
  | @up b p chain hparent _ ih =>
      have hlast := ih ((idom?_closest hv hroot hb hparent).dominates.reaches hb)
      rw [List.getLast?_cons, hlast, Option.getD_some]

/-! ## Graphs and their reverses -/

/-- **The dominator tree is exact.**  On a graph made by adding nodes and
edges, and on its reverse, from a root that is a node:

* the parent of a node is its closest strict dominator, and exactly the root
  and the nodes that it does not reach, among them all numbers that are no
  nodes, have none;
* the children of a node are the nodes that have it as parent, ascending;
* the way up from a node that the root reaches ends at the root and passes
  exactly the dominators of the node, the computed ones as well as those by
  paths. -/
theorem tree_exact {ν ε : Type} {g : Digraph ν ε} (hg : g.Built)
    {v : View} (hv : v = g.view ∨ v = g.view.reverse) {root : NodeId} (hroot : root < v.size) :
    (∀ b p, (compute v root).idom? b = some p ↔
      v.Reaches root b ∧ b ≠ root ∧ (compute v root).strictlyDominates p b = true ∧
        ∀ a, (compute v root).strictlyDominates a b = true →
          (compute v root).dominates a p = true) ∧
    (∀ b, (compute v root).idom? b = none ↔ b = root ∨ ¬ v.Reaches root b) ∧
    (∀ b, v.size ≤ b → (compute v root).idom? b = none) ∧
    (∀ p, ((compute v root).children p).Pairwise (· < ·) ∧
      ∀ b, b ∈ (compute v root).children p ↔ (compute v root).idom? b = some p) ∧
    ∀ b, v.Reaches root b → ∃ chain, (compute v root).Lineage b chain ∧
      chain.getLast? = some root ∧
      ∀ a, ((compute v root).dominates a b = true ↔ a ∈ chain) ∧
        (v.Dominates root a b ↔ a ∈ chain) := by
  have hlinked := hg.linked_of_view hv
  refine ⟨fun b p => ?_, fun b => idom?_eq_none_iff hlinked hroot, fun b hb => ?_,
    fun p => ⟨ascends_children _ p, fun b => mem_children hlinked⟩, fun b hb => ?_⟩
  · rw [idom?_eq_some_iff hlinked hroot]
    constructor
    · rintro ⟨hb, hp⟩
      refine ⟨hb, ?_, (closest_iff hlinked hroot hb).1 hp⟩
      rintro rfl
      exact hp.ne hp.dominates.eq_root
    · rintro ⟨hb, -, hp⟩
      exact ⟨hb, (closest_iff hlinked hroot hb).2 hp⟩
  · refine (idom?_eq_none_iff hlinked hroot).2 (.inr fun hreach => ?_)
    exact Nat.not_lt.2 hb (hreach.lt_size hlinked hroot)
  · obtain ⟨chain, hchain⟩ := exists_lineage v root b
    refine ⟨chain, hchain, hchain.getLast?_eq hlinked hroot hb, fun a => ⟨?_, ?_⟩⟩
    · rw [dominates_iff hlinked hroot hb, hchain.mem_iff hlinked hroot hb]
    · exact (hchain.mem_iff hlinked hroot hb).symm

/-- A loop at 1 with two arms that meet at 4, which leaves the loop to 5; a
node that nothing reaches leads into the loop as well. -/
def forkedLoop : Digraph Unit Unit :=
  [(0, 1, ()), (1, 2, ()), (1, 3, ()), (2, 4, ()), (3, 4, ()), (4, 1, ()), (4, 5, ()),
    (6, 4, ())].foldl (fun g e => g.connect e.1 e.2.1 e.2.2)
      ((List.replicate 7 ()).foldl Digraph.addNode .empty)

theorem tree_exact_forkedLoop :
    forkedLoop.Built ∧ 0 < forkedLoop.view.size ∧
      (compute forkedLoop.view 0).idom? 4 = some 1 ∧
      (compute forkedLoop.view 0).idom? 6 = none ∧
      (compute forkedLoop.view 0).children 1 = [2, 3, 4] ∧
      ∃ chain, (compute forkedLoop.view 0).Lineage 4 chain ∧ chain.getLast? = some 0 ∧
        1 ∈ chain ∧ ∀ path, forkedLoop.view.Path 0 4 path → 1 ∈ path := by
  have hbuilt : forkedLoop.Built :=
    Digraph.built_foldl_connect (Digraph.built_foldl_addNode .empty _)
      (by unfold Digraph.EdgesWithin; decide)
  have hsize : 0 < forkedLoop.view.size := by decide
  have hreach : forkedLoop.view.Reaches 0 4 :=
    ⟨[0, 1, 2, 4], .step (.step (.step .start (by decide)) (by decide)) (by decide)⟩
  have hdom : (compute forkedLoop.view 0).dominates 1 4 = true := by decide +kernel
  obtain ⟨-, -, -, -, hchains⟩ := tree_exact hbuilt (.inl rfl) hsize
  obtain ⟨chain, hchain, hlast, hmem⟩ := hchains 4 hreach
  have h1 : 1 ∈ chain := (hmem 1).1.1 hdom
  exact ⟨hbuilt, hsize, by decide +kernel, by decide +kernel, by decide +kernel,
    chain, hchain, hlast, h1, (hmem 1).2.2 h1⟩

end Dominators

end MethodFlow
