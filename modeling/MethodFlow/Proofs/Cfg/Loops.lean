import MethodFlow.Proofs.Cfg.Acceptance
import MethodFlow.Proofs.Graph.Dominance

/-!
# The nodes of a natural loop

A back edge leads from a latch to a header that dominates it.  The nodes of
its loop are found by a search backwards from the latch that does not enter
the header and skips what the header does not dominate.

Skipping loses only nodes that the entry does not reach.  A node that the
entry reaches, and from which the latch can be reached past the header, is
dominated by the header: otherwise the entry would reach the latch past the
header.  The argument is made edge by edge, along the search: what leads to a
node that the header dominates is dominated by the header, unless it is the
header or is not reached.

## Main results

* `View.contains_loopBody`: the nodes of a loop are the header and what the
  search finds.
* `View.Circles.of_path`, `View.Circles.exists_path`: the search finds the
  nodes from which the latch can be reached past the header.
* `Cfg.loopBody_exact`: the nodes of the loop of a back edge.
-/

namespace MethodFlow

namespace Dominators

/-- Only nodes that the root reaches have other dominators than
themselves. -/
theorem reaches_of_dominates {v : View} {root a b : Nat} (hv : v.Linked) (hne : a ≠ b)
    (h : (compute v root).dominates a b = true) : root < v.size ∧ v.Reaches root b := by
  by_contra hunreached
  have hb : b < v.size := ((kept_compute hv root).lt_of_among h).2
  exact hne ((dominates_iff_of_unreached hv hb hunreached).1 h)

end Dominators

namespace View

variable {v : View} {d : Dominators} {root a b c h n : Nat} {path : List NodeId}

theorem mem_backEdges (hv : v.Linked) :
    (a, h) ∈ v.backEdges d ↔ h ∈ v.succ a ∧ d.dominates h a = true := by
  simp only [backEdges, nodes, List.mem_flatMap, List.mem_map, List.mem_filter, List.mem_range,
    Bool.and_eq_true, List.contains_iff_mem, Prod.mk.injEq]
  constructor
  · rintro ⟨s, -, t, ⟨-, hedge, hdom⟩, rfl, rfl⟩
    exact ⟨hedge, hdom⟩
  · rintro ⟨hedge, hdom⟩
    exact ⟨a, hv.source_lt hedge, h, ⟨hv.target_lt hedge, hedge, hdom⟩, rfl, rfl⟩

/-! ## The search backwards -/

/-- `n` is found from the latch `a` by going backwards through nodes that the
header `h` dominates strictly. -/
def Circles (v : View) (d : Dominators) (a h n : NodeId) : Prop :=
  ReachIn v.pred (v.nodes.filter fun n => n ≠ h && d.dominates h n) [a] n

/-- The nodes of a loop are its header and what the search finds. -/
theorem contains_loopBody (hh : h < v.size) :
    (v.loopBody d a h).contains n = true ↔ n = h ∨ v.Circles d a h n := by
  have hcapacity : ((BitSet.empty v.size).add h).capacity = v.size := BitSet.capacity_add _ _
  have hempty : (BitSet.empty v.size).capacity = v.size := rfl
  rw [loopBody, BitSet.contains_foldl_add, hcapacity, mem_explore, BitSet.contains_add,
    BitSet.contains_empty, hempty]
  simp only [Bool.false_or, Bool.and_eq_true, decide_eq_true_eq, hh, and_true]
  refine or_congr_right (and_iff_left_of_imp fun hn => ?_)
  exact List.mem_range.1 (List.mem_filter.1 hn.mem_pending).1

theorem mem_candidates :
    n ∈ v.nodes.filter (fun n => n ≠ h && d.dominates h n) ↔
      n < v.size ∧ n ≠ h ∧ d.dominates h n = true := by
  simp [nodes]

namespace Circles

theorem ne_header (hn : v.Circles d a h n) : n ≠ h := (mem_candidates.1 hn.mem_pending).2.1

theorem dominated (hn : v.Circles d a h n) : d.dominates h n = true :=
  (mem_candidates.1 hn.mem_pending).2.2

/-- From what the search finds, a path leads to the latch by nodes that it
finds as well. -/
theorem exists_path (hv : v.Linked) (hn : v.Circles d a h n) :
    ∃ path, v.Path n a path ∧ ∀ m ∈ path, v.Circles d a h m := by
  induction hn with
  | @root b hpending hwork =>
      have hba := List.mem_singleton.1 hwork
      subst hba
      exact ⟨[b], .start, List.forall_mem_singleton.2 (.root hpending hwork)⟩
  | @step b c hreach hpending hnext ih =>
      obtain ⟨path, hpath, hall⟩ := ih
      exact ⟨c :: path, hpath.cons (hv.mem_pred.1 hnext),
        List.forall_mem_cons.2 ⟨.step hreach hpending hnext, hall⟩⟩

variable (hv : v.Linked)
include hv

theorem reaches (hn : v.Circles (.compute v root) a h n) :
    root < v.size ∧ v.Reaches root n :=
  Dominators.reaches_of_dominates hv hn.ne_header.symm hn.dominated

/-- The search goes on to every predecessor that the root reaches, except to
the header. -/
theorem pred (hc : v.Circles (.compute v root) a h c) (hedge : c ∈ v.succ b)
    (hb : v.Reaches root b) (hne : b ≠ h) : v.Circles (.compute v root) a h b := by
  obtain ⟨hroot, hreach⟩ := hc.reaches hv
  have hdom := (Dominators.dominates_iff hv hroot hreach).1 hc.dominated
  have hdom' := (Dominators.dominates_iff hv hroot hb).2 (hdom.pred hc.ne_header.symm hedge)
  exact .step hc (mem_candidates.2 ⟨hv.source_lt hedge, hne, hdom'⟩) (hv.mem_pred.2 hedge)

/-- A node that the root reaches, and from which a path past the header leads
to something found, is found. -/
theorem of_path (hn : v.Reaches root n) (hpath : v.Path n b path) (hmiss : h ∉ path)
    (hb : v.Circles (.compute v root) a h b) : v.Circles (.compute v root) a h n := by
  induction hpath with
  | start => exact hb
  | @step b c path hpath hedge ih =>
      have hmiss' : h ∉ path := fun hmem => hmiss (List.mem_append_left _ hmem)
      refine ih hmiss' (hb.pred hv hedge (hn.trans ⟨path, hpath⟩) ?_)
      rintro rfl
      exact hmiss' hpath.end_mem

/-- From the header a path leads to whatever the search finds, by nodes that
it finds as well. -/
theorem exists_path_from (hn : v.Circles (.compute v root) a h n) :
    ∃ path, v.Path h n path ∧ ∀ m ∈ path, m = h ∨ v.Circles (.compute v root) a h m := by
  obtain ⟨hroot, path, hpath⟩ := hn.reaches hv
  -- Coming from the root, the first node found is entered from the header.
  induction hpath with
  | start =>
      have hdom := (Dominators.dominates_iff hv hroot (.refl v root)).1 hn.dominated
      exact absurd hdom.eq_root.symm hn.ne_header
  | @step b c path hpath hedge ih =>
      have hgrow : ∀ {front : List NodeId}, v.Path h b front →
          (∀ m ∈ front, m = h ∨ v.Circles (.compute v root) a h m) →
          ∃ path, v.Path h c path ∧
            ∀ m ∈ path, m = h ∨ v.Circles (.compute v root) a h m := by
        intro front hfront hall
        exact ⟨front ++ [c], hfront.step hedge,
          List.forall_mem_append.2 ⟨hall, List.forall_mem_singleton.2 (.inr hn)⟩⟩
      by_cases hbh : b = h
      · subst hbh
        exact hgrow .start (List.forall_mem_singleton.2 (.inl rfl))
      · obtain ⟨front, hfront, hall⟩ := ih (hn.pred hv hedge ⟨path, hpath⟩ hbh)
        exact hgrow hfront hall

end Circles

end View

namespace Cfg

/-- **Natural loops are exact.**  An edge whose target `h`, the header,
dominates its source `a`, the latch, is a back edge.  Its loop consists of the
header and the nodes that the entry reaches and from which a path that does
not pass the header leads to the latch.  The header dominates all of them, and
each has a path to the header and one from the header that stay inside the
loop.  The graph may have nodes that the entry does not reach, the latch and
the header among them. -/
theorem loopBody_exact {c : Cfg} (hc : c.graph.Built) {a h : NodeId}
    (hedge : h ∈ c.view.succ a) (hdom : c.dominators.dominates h a = true) :
    (a, h) ∈ c.view.backEdges c.dominators ∧
    (∀ n, (c.view.loopBody c.dominators a h).contains n = true ↔
      n = h ∨ c.view.Reaches entry n ∧ ∃ path, c.view.Path n a path ∧ h ∉ path) ∧
    ∀ n, (c.view.loopBody c.dominators a h).contains n = true →
      c.dominators.dominates h n = true ∧
      (∃ path, c.view.Path n h path ∧
        ∀ m ∈ path, (c.view.loopBody c.dominators a h).contains m = true) ∧
      ∃ path, c.view.Path h n path ∧
        ∀ m ∈ path, (c.view.loopBody c.dominators a h).contains m = true := by
  have hv : c.view.Linked := hc.linked
  have hh : h < c.view.size := hv.target_lt hedge
  have hbody : ∀ {n : Nat}, (c.view.loopBody c.dominators a h).contains n = true ↔
      n = h ∨ c.view.Circles c.dominators a h n := View.contains_loopBody hh
  refine ⟨(View.mem_backEdges hv).2 ⟨hedge, hdom⟩, fun n => ?_, fun n hn => ?_⟩
  · rw [hbody]
    refine or_congr_right ⟨fun hn => ?_, ?_⟩
    · obtain ⟨path, hpath, hall⟩ := hn.exists_path hv
      exact ⟨(hn.reaches hv).2, path, hpath, fun hmem => (hall h hmem).ne_header rfl⟩
    · rintro ⟨hreach, path, hpath, hmiss⟩
      have hne : a ≠ h := by
        rintro rfl
        exact hmiss hpath.end_mem
      have ha : c.view.Circles c.dominators a h a :=
        .root (View.mem_candidates.2 ⟨hv.source_lt hedge, hne, hdom⟩) (List.mem_singleton_self a)
      exact .of_path hv hreach hpath hmiss ha
  · rcases hbody.1 hn with rfl | hn
    · have hself : ∀ m ∈ [n], (c.view.loopBody c.dominators a n).contains m = true :=
        List.forall_mem_singleton.2 hn
      exact ⟨Dominators.dominates_self hv hh, ⟨[n], .start, hself⟩, [n], .start, hself⟩
    · obtain ⟨path, hpath, hall⟩ := hn.exists_path hv
      obtain ⟨back, hback, hall'⟩ := hn.exists_path_from hv
      have hthere : ∀ m ∈ path ++ [h], (c.view.loopBody c.dominators a h).contains m = true :=
        List.forall_mem_append.2 ⟨fun m hm => hbody.2 (.inr (hall m hm)),
          List.forall_mem_singleton.2 (hbody.2 (.inl rfl))⟩
      exact ⟨hn.dominated, ⟨path ++ [h], hpath.step hedge, hthere⟩, back, hback,
        fun m hm => hbody.2 (hall' m hm)⟩

/-- A loop with a jump into its middle that nothing leads to. -/
def deadJump : List Instruction :=
  [⟨0, .nop⟩, ⟨1, .branch .conditional 5⟩, ⟨2, .nop⟩, ⟨3, .branch .unconditional 0⟩,
    ⟨4, .branch .unconditional 2⟩, ⟨5, .return none⟩]

/-- The jump, node 5, leads to the latch, node 4, past the header, node 2, but
as the entry does not reach it, it is no part of the loop. -/
theorem loopBody_exact_deadJump :
    ∃ c, build none deadJump [] .default = .ok c ∧ c.graph.Built ∧
      2 ∈ c.view.succ 4 ∧ c.dominators.dominates 2 4 = true ∧
      (4, 2) ∈ c.view.backEdges c.dominators ∧
      c.view.Path 5 4 [5, 4] ∧ ¬ c.view.Reaches entry 5 ∧
      c.view.Reaches entry 4 ∧ ∃ path, c.view.Path 4 2 path ∧
        ∀ m ∈ path, (c.view.loopBody c.dominators 4 2).contains m = true := by
  let c : Cfg := ⟨none, (Layout.of deadJump []).graph .default⟩
  have hbuild : build none deadJump [] .default = .ok c := build_eq_ok_iff.2 ⟨by decide, rfl⟩
  have hbuilt : c.graph.Built := (build_wired hbuild).built
  have hedge : 2 ∈ c.view.succ 4 := by decide +kernel
  have hdom : c.dominators.dominates 2 4 = true := by decide +kernel
  have hjump : c.view.Path 5 4 [5, 4] := .step .start (by decide +kernel)
  have hlatch : (c.view.loopBody c.dominators 4 2).contains 4 = true := by decide +kernel
  have hdead : ¬ (c.view.loopBody c.dominators 4 2).contains 5 = true := by decide +kernel
  obtain ⟨hback, hexact, hinside⟩ := loopBody_exact hbuilt hedge hdom
  refine ⟨c, hbuild, hbuilt, hedge, hdom, hback, hjump, fun hreach => ?_, ?_,
    (hinside 4 hlatch).2.1⟩
  · exact hdead ((hexact 5).2 (.inr ⟨hreach, _, hjump, by decide⟩))
  · exact (((hexact 4).1 hlatch).resolve_left (by decide)).1

end Cfg

end MethodFlow
