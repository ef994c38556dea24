import MethodFlow.Proofs.Graph.Paths
import MethodFlow.Proofs.Graph.Sweeps

/-!
# The computed dominators are the dominators by paths

* No set ever loses a node that dominates by paths, so the sets stay above
  dominance.
* When a sweep changes nothing, every single narrowing has changed nothing,
  and then a path can be followed node by node: the sets are below
  dominance.

## Main results

* `Dominators.dominates_iff`: on nodes that the root reaches, the computed
  relation is dominance by paths.
* `Dominators.compute_exact`: the same for every graph and its reverse, with
  the end of the sweeps and the nodes that are not reached.
-/

namespace MethodFlow

namespace Dominators

variable {v : View} {root a b : Nat} {sets : Array BitSet}

/-! ## The run from the start sets -/

/-- The sets before the first sweep. -/
def startSets (v : View) (root : NodeId) : Array BitSet :=
  (Array.range v.size).map (startSet v (reachable v root) root)

/-- The nodes to be narrowed, with their predecessors. -/
def linksOf (v : View) (root : NodeId) : List (NodeId × List NodeId) :=
  refinements v (reachable v root) root

theorem contains_reachable (hv : v.Linked) :
    (reachable v root).contains b = true ↔ root < v.size ∧ v.Reaches root b := by
  have hempty : (BitSet.empty v.size).capacity = v.size := rfl
  rw [reachable, BitSet.contains_foldl_add, BitSet.contains_empty, hempty, mem_explore,
    View.reachIn_nodes_iff hv]
  constructor
  · rintro (h | ⟨h, -⟩)
    · cases h
    · exact h
  · intro h
    exact .inr ⟨h, h.2.lt_size hv h.1⟩

private theorem among_startSets (hb : b < v.size) :
    among (startSets v root) a b = true ↔
      if b = root ∨ (reachable v root).contains b = false then a = b else a < v.size := by
  have hget : (startSets v root)[b]? = some (startSet v (reachable v root) root b) := by
    simp [startSets, hb]
  have hempty : (BitSet.empty v.size).capacity = v.size := rfl
  simp only [among, hget]
  unfold startSet
  split
  · rw [BitSet.contains_add, BitSet.contains_empty, hempty]
    simp [hb]
  · rw [BitSet.contains_full, decide_eq_true_eq]

private theorem kept_startSets : Kept v.size (startSets v root) where
  size_eq := by simp [startSets]
  capacity_eq := by
    intro i s hs
    simp only [startSets, Array.getElem?_map, Option.map_eq_some_iff] at hs
    obtain ⟨j, -, rfl⟩ := hs
    unfold startSet
    split
    · rw [BitSet.capacity_add]
      rfl
    · rfl
  self_mem := by
    intro i hi
    rw [among_startSets hi]
    split
    · rfl
    · exact hi

private theorem mem_linksOf {link : NodeId × List NodeId} :
    link ∈ linksOf v root ↔
      (link.1 < v.size ∧ link.1 ≠ root ∧ (reachable v root).contains link.1 = true) ∧
        link.2 = (v.pred link.1).filter (reachable v root).contains := by
  obtain ⟨node, preds⟩ := link
  simp only [linksOf, refinements, List.mem_map, List.mem_filter, View.nodes, List.mem_range,
    Bool.and_eq_true, decide_eq_true_eq, Prod.mk.injEq]
  constructor
  · rintro ⟨n, hn, rfl, rfl⟩
    exact ⟨hn, rfl⟩
  · rintro ⟨hn, rfl⟩
    exact ⟨node, hn, rfl, rfl⟩

private theorem linksWithin_linksOf (hv : v.Linked) : LinksWithin v.size (linksOf v root) := by
  intro link hlink
  obtain ⟨⟨hnode, -, -⟩, hpreds⟩ := mem_linksOf.1 hlink
  refine ⟨hnode, fun p hp => ?_⟩
  rw [hpreds] at hp
  exact hv.source_lt (hv.mem_pred.1 (List.mem_filter.1 hp).1)

private theorem functional_linksOf : Functional (linksOf v root) := by
  intro link hlink link' hlink' hsame
  rw [(mem_linksOf.1 hlink).2, (mem_linksOf.1 hlink').2, hsame]

private theorem above_startSets : Above v.size (linksOf v root) (startSets v root) := by
  intro link hlink a ha _
  obtain ⟨⟨hnode, hroot, hreached⟩, -⟩ := mem_linksOf.1 hlink
  rw [among_startSets hnode, if_neg (by simp [hroot, hreached])]
  exact ha

/-- What the start sets satisfy and every narrowing keeps holds after any
number of sweeps. -/
private theorem run_induction {P : Array BitSet → Prop} (hv : v.Linked)
    (hP : P (startSets v root))
    (hstep : ∀ sets, Kept v.size sets → P sets →
      ∀ link ∈ linksOf v root, P (refineAt sets link)) (k : Nat) :
    P ((sweep (linksOf v root))^[k] (startSets v root)) := by
  have hlinks : LinksWithin v.size (linksOf v root) := linksWithin_linksOf hv
  induction k with
  | zero => exact hP
  | succ k ih =>
      rw [Function.iterate_succ_apply']
      exact (sweep_induction hlinks (kept_startSets.iterate_sweep hlinks k) ih hstep).2

/-- The set of the root, and of a node that the root does not reach, stays
as it was at the start. -/
private theorem among_run_of_idle (hv : v.Linked) (hb : b < v.size)
    (hidle : b = root ∨ (reachable v root).contains b = false) (k : Nat) :
    ∀ a, among ((sweep (linksOf v root))^[k] (startSets v root)) a b = true ↔ a = b := by
  refine run_induction (P := fun sets => ∀ a, among sets a b = true ↔ a = b) hv ?_ ?_ k
  · intro a
    rw [among_startSets hb, if_pos hidle]
  · intro sets hk ih link hlink a
    obtain ⟨hnode, hpreds⟩ := linksWithin_linksOf hv link hlink
    obtain ⟨⟨-, hroot, hreached⟩, -⟩ := mem_linksOf.1 hlink
    have hne : b ≠ link.1 := by
      rintro rfl
      rcases hidle with h | h
      · exact hroot h
      · rw [h] at hreached
        cases hreached
    rw [among_refineAt hk hnode hpreds, ih]
    exact ⟨And.left, fun h => ⟨h, fun hsame => absurd hsame hne⟩⟩

/-- No set ever loses a node that dominates by paths. -/
private theorem among_run_of_dominates (hv : v.Linked) (hroot : root < v.size) (k : Nat) :
    ∀ a b, v.Reaches root b → v.Dominates root a b →
      among ((sweep (linksOf v root))^[k] (startSets v root)) a b = true := by
  refine run_induction (P := fun sets => ∀ a b, v.Reaches root b → v.Dominates root a b →
    among sets a b = true) hv ?_ ?_ k
  · intro a b hb hdom
    rw [among_startSets (hb.lt_size hv hroot)]
    have hreached := (contains_reachable hv).2 ⟨hroot, hb⟩
    by_cases hbr : b = root
    · rw [if_pos (.inl hbr)]
      rw [hbr] at hdom ⊢
      exact hdom.eq_root
    · rw [if_neg (by simp [hbr, hreached])]
      exact (hdom.reaches hb).lt_size hv hroot
  · intro sets hk ih link hlink a b hb hdom
    obtain ⟨hnode, hpreds⟩ := linksWithin_linksOf hv link hlink
    refine (among_refineAt hk hnode hpreds).2 ⟨ih a b hb hdom, fun hsame => ?_⟩
    by_cases ha : a = link.1
    · exact .inl ha
    · refine .inr fun p hp => ?_
      rw [(mem_linksOf.1 hlink).2] at hp
      obtain ⟨hpred, hp⟩ := List.mem_filter.1 hp
      have hedge := hv.mem_pred.1 hpred
      exact ih a p ((contains_reachable hv).1 hp).2 ((hsame ▸ hdom).pred ha hedge)

/-- Where a sweep changes nothing, a node in a set is on every path. -/
private theorem dominates_of_among_fixed (hv : v.Linked) (hroot : root < v.size)
    (hk : Kept v.size sets)
    (hfix : sweep (linksOf v root) sets = sets)
    (hidle : ∀ a, among sets a root = true ↔ a = root)
    (h : among sets a b = true) : v.Dominates root a b := by
  have hlinks : LinksWithin v.size (linksOf v root) := linksWithin_linksOf hv
  intro path hpath
  induction hpath with
  | start =>
      rw [(hidle a).1 h]
      exact List.mem_singleton_self root
  | @step m n path hpath hedge ih =>
      by_cases hn : n = root
      · subst hn
        rw [(hidle a).1 h]
        exact (hpath.step hedge).start_mem
      · have hreached : v.Reaches root n := ⟨_, hpath.step hedge⟩
        have hlink : (n, (v.pred n).filter (reachable v root).contains) ∈ linksOf v root :=
          mem_linksOf.2 ⟨⟨hv.target_lt hedge, hn, (contains_reachable hv).2 ⟨hroot, hreached⟩⟩,
            rfl⟩
        obtain ⟨hnode, hpreds⟩ := hlinks _ hlink
        have hstill := h
        rw [← refineAt_eq_of_sweep_eq hk hlinks hfix _ hlink,
          among_refineAt hk hnode hpreds] at hstill
        rcases hstill.2 rfl with rfl | hall
        · exact (hpath.step hedge).end_mem
        · have hm : m ∈ (v.pred n).filter (reachable v root).contains :=
            List.mem_filter.2 ⟨hv.mem_pred.2 hedge,
              (contains_reachable hv).2 ⟨hroot, ⟨path, hpath⟩⟩⟩
          exact List.mem_append_left _ (ih (hall m hm))

/-- The run that `compute` makes: it ends at the first sweep that changes
nothing. -/
theorem compute_run (hv : v.Linked) (root : NodeId) :
    ∃ k, (compute v root).sets = (sweep (linksOf v root))^[k] (startSets v root) ∧
      (compute v root).rounds = k + 1 ∧
      sweep (linksOf v root) ((sweep (linksOf v root))^[k] (startSets v root)) =
        (sweep (linksOf v root))^[k] (startSets v root) ∧
      ∀ j < k, sweep (linksOf v root) ((sweep (linksOf v root))^[j] (startSets v root)) ≠
        (sweep (linksOf v root))^[j] (startSets v root) := by
  obtain ⟨k, hsettle, hfix, hbefore⟩ :=
    settle_spec (linksWithin_linksOf hv) (kept_startSets : Kept v.size (startSets v root)) 0
  refine ⟨k, ?_, ?_, hfix, hbefore⟩
  · show (settle (linksOf v root) (startSets v root) 0).1 = _
    rw [hsettle]
  · show (settle (linksOf v root) (startSets v root) 0).2 = _
    rw [hsettle, Nat.zero_add]

theorem kept_compute (hv : v.Linked) (root : NodeId) : Kept v.size (compute v root).sets := by
  obtain ⟨k, hsets, -⟩ := compute_run hv root
  rw [hsets]
  exact kept_startSets.iterate_sweep (linksWithin_linksOf hv) k

/-- On nodes that the root reaches, the computed relation is dominance by
paths. -/
theorem dominates_iff (hv : v.Linked) (hroot : root < v.size) (hb : v.Reaches root b) :
    (compute v root).dominates a b = true ↔ v.Dominates root a b := by
  obtain ⟨k, hsets, -, hfix, -⟩ := compute_run hv root
  unfold dominates
  constructor
  · intro h
    refine dominates_of_among_fixed hv hroot (kept_compute hv root) ?_ ?_ h
    · rw [hsets, hfix]
    · rw [hsets]
      exact among_run_of_idle hv hroot (.inl rfl) k
  · intro h
    rw [hsets]
    exact among_run_of_dominates hv hroot k a b hb h

/-- A node that the root does not reach is dominated by itself only; from a
root that is no node, nothing is reached. -/
theorem dominates_iff_of_unreached (hv : v.Linked) (hb : b < v.size)
    (hunreached : ¬ (root < v.size ∧ v.Reaches root b)) :
    (compute v root).dominates a b = true ↔ a = b := by
  obtain ⟨k, hsets, -⟩ := compute_run hv root
  have hidle : (reachable v root).contains b = false := by
    rw [Bool.eq_false_iff]
    exact fun h => hunreached ((contains_reachable hv).1 h)
  unfold dominates
  rw [hsets]
  exact among_run_of_idle hv hb (.inr hidle) k a

theorem dominates_self (hv : v.Linked) (hb : b < v.size) :
    (compute v root).dominates b b = true := by
  by_cases hreached : root < v.size ∧ v.Reaches root b
  · exact (dominates_iff hv hreached.1 hreached.2).2 (.refl v root b)
  · exact (dominates_iff_of_unreached hv hb hreached).2 rfl

/-! ## Graphs and their reverses -/

/-- **The computed dominators are exact.**  On a graph made by adding nodes
and edges, and on its reverse, the sweeps that compute every set afresh end:
`compute` gives the sets after the first `k` of them, where sweep `k + 1` is
the first that changes nothing.  A node that the root reaches is then
dominated by the nodes on all its paths from the root, any other node by
itself only. -/
theorem compute_exact {ν ε : Type} {g : Digraph ν ε} (hg : g.Built)
    {v : View} (hv : v = g.view ∨ v = g.view.reverse) (root : NodeId) :
    (∃ k, (compute v root).sets =
          (recompute v.size (linksOf v root))^[k] (startSets v root) ∧
        (compute v root).rounds = k + 1 ∧
        (recompute v.size (linksOf v root))^[k + 1] (startSets v root) =
          (recompute v.size (linksOf v root))^[k] (startSets v root) ∧
        ∀ j < k, (recompute v.size (linksOf v root))^[j + 1] (startSets v root) ≠
          (recompute v.size (linksOf v root))^[j] (startSets v root)) ∧
      ∀ a b, b < v.size →
        (root < v.size → v.Reaches root b →
          ((compute v root).dominates a b = true ↔
            ∀ path, v.Path root b path → a ∈ path)) ∧
        (root < v.size → ¬ v.Reaches root b →
          ((compute v root).dominates a b = true ↔ a = b)) ∧
        (v.size ≤ root → ((compute v root).dominates a b = true ↔ a = b)) := by
  have hlinked : v.Linked := by
    rcases hv with rfl | rfl
    · exact hg.linked
    · exact hg.linked.reverse
  refine ⟨?_, fun a b hb => ⟨fun hroot hreach => ?_, fun _ hreach => ?_, fun hroot => ?_⟩⟩
  · obtain ⟨k, hsets, hrounds, hfix, hbefore⟩ := compute_run hlinked root
    have hsame : ∀ j, (sweep (linksOf v root))^[j] (startSets v root) =
        (recompute v.size (linksOf v root))^[j] (startSets v root) := fun j =>
      (sweep_iterate_eq_recompute (linksWithin_linksOf hlinked) functional_linksOf
        kept_startSets above_startSets j).1
    refine ⟨k, by rw [hsets, hsame], hrounds, ?_, fun j hj => ?_⟩
    · rw [← hsame, ← hsame, Function.iterate_succ_apply', hfix]
    · rw [← hsame, ← hsame, Function.iterate_succ_apply']
      exact hbefore j hj
  · exact dominates_iff hlinked hroot hreach
  · exact dominates_iff_of_unreached hlinked hb fun h => hreach h.2
  · exact dominates_iff_of_unreached hlinked hb fun h => Nat.not_lt.2 hroot h.1

/-- A cycle through the root, with an edge into it from a node that the root
does not reach. -/
def sideEntry : Digraph Unit Unit :=
  [(0, 1, ()), (1, 2, ()), (2, 0, ()), (3, 2, ())].foldl
    (fun g e => g.connect e.1 e.2.1 e.2.2) ([(), (), (), ()].foldl Digraph.addNode .empty)

theorem compute_exact_sideEntry :
    sideEntry.Built ∧ (compute sideEntry.view 0).dominates 1 2 = true ∧
      (∀ path, sideEntry.view.Path 0 2 path → 1 ∈ path) ∧
      (compute sideEntry.view 0).dominates 0 3 = false := by
  have hbuilt : sideEntry.Built :=
    Digraph.built_foldl_connect (Digraph.built_foldl_addNode .empty _)
      (by unfold Digraph.EdgesWithin; decide)
  have hreach : sideEntry.view.Reaches 0 2 :=
    ⟨[0, 1, 2], .step (.step .start (by decide)) (by decide)⟩
  have hdom : (compute sideEntry.view 0).dominates 1 2 = true := by decide +kernel
  have hexact := (compute_exact hbuilt (.inl rfl) 0).2 1 2 (by decide)
  exact ⟨hbuilt, hdom, (hexact.1 (by decide) hreach).1 hdom, by decide +kernel⟩

end Dominators

end MethodFlow
