import MethodFlow.Proofs.Cfg.LoopForest
import MethodFlow.Proofs.Graph.DominatorTree

/-!
# Loops with different headers are nested or disjoint

A header dominates its loop, so the headers of two loops that share a node
both dominate that node, and one of them dominates the other.  The loop of the
outer header then takes in the whole inner loop.  From any node of the inner
loop, a path inside it leads to the inner header and on to the shared node.
The outer header is not in the inner loop, as it would be dominated by the
inner header, so this path goes past it, and what leads to a node of a loop
past its header belongs to the loop.

## Main results

* `View.Natural.exists_path`: between two nodes of a loop a path stays inside
  it.
* `View.Natural.mem_of_path`: what leads into a loop past its header belongs
  to it.
* `Cfg.loops_nest`: loops with different headers are nested or disjoint.
-/

namespace MethodFlow

namespace View

variable {v : View} {root m n : NodeId} {path : List NodeId} {l l' : NaturalLoop}

/-! ## One loop -/

namespace Natural

/-- The nodes of a loop besides the header are found from one of its
latches. -/
theorem exists_circles {d : Dominators} (hl : v.Natural d l) :
    ∃ a, l.header ∈ v.succ a ∧ ∀ n, n ∈ l.nodes ↔ n = l.header ∨ v.Circles d a l.header n := by
  obtain ⟨a, ha, hbody⟩ := hl.exists_latch
  refine ⟨a, (View.mem_latches.1 ha).2.1, fun n => ?_⟩
  rw [NaturalLoop.mem_nodes, ← hbody]
  exact contains_loopBody hl.header_lt

theorem header_mem {d : Dominators} (hl : v.Natural d l) : l.header ∈ l.nodes := by
  obtain ⟨a, -, hmem⟩ := hl.exists_circles
  exact (hmem l.header).2 (.inl rfl)

variable (hv : v.Linked) (hl : v.Natural (.compute v root) l)
include hv hl

theorem dominates_of_mem (hn : n ∈ l.nodes) :
    (Dominators.compute v root).dominates l.header n = true := by
  obtain ⟨a, -, hmem⟩ := hl.exists_circles
  rcases (hmem n).1 hn with rfl | hcircles
  · exact Dominators.dominates_self hv hl.header_lt
  · exact hcircles.dominated

/-- Between two nodes of a loop a path stays inside it: it leads by the latch
to the header and from there on. -/
theorem exists_path (hm : m ∈ l.nodes) (hn : n ∈ l.nodes) :
    ∃ path, v.Path m n path ∧ ∀ k ∈ path, k ∈ l.nodes := by
  obtain ⟨a, hedge, hmem⟩ := hl.exists_circles
  obtain ⟨back, hback, hback'⟩ : ∃ back, v.Path m l.header back ∧ ∀ k ∈ back, k ∈ l.nodes := by
    rcases (hmem m).1 hm with rfl | hcircles
    · exact ⟨[l.header], .start, List.forall_mem_singleton.2 hm⟩
    · obtain ⟨back, hback, hall⟩ := hcircles.exists_path hv
      refine ⟨back ++ [l.header], hback.step hedge, ?_⟩
      exact List.forall_mem_append.2 ⟨fun k hk => (hmem k).2 (.inr (hall k hk)),
        List.forall_mem_singleton.2 hl.header_mem⟩
  obtain ⟨there, hthere, hthere'⟩ : ∃ there, v.Path l.header n there ∧
      ∀ k ∈ there, k ∈ l.nodes := by
    rcases (hmem n).1 hn with rfl | hcircles
    · exact ⟨[l.header], .start, List.forall_mem_singleton.2 hn⟩
    · obtain ⟨there, hthere, hall⟩ := hcircles.exists_path_from hv
      exact ⟨there, hthere, fun k hk => (hmem k).2 (hall k hk)⟩
  obtain ⟨path, hpath, hsub⟩ := hback.trans hthere
  refine ⟨path, hpath, fun k hk => ?_⟩
  rcases hsub k hk with hk | hk
  · exact hback' k hk
  · exact hthere' k hk

/-- A node that the root reaches, and from which a path past the header leads
into a loop, belongs to the loop. -/
theorem mem_of_path (hm : v.Reaches root m) (hpath : v.Path m n path) (hmiss : l.header ∉ path)
    (hn : n ∈ l.nodes) : m ∈ l.nodes := by
  obtain ⟨a, -, hmem⟩ := hl.exists_circles
  have hne : n ≠ l.header := by
    rintro rfl
    exact hmiss hpath.end_mem
  exact (hmem m).2 (.inr (.of_path hv hm hpath hmiss (((hmem n).1 hn).resolve_left hne)))

end Natural

/-! ## Two loops -/

/-- Of two loops that share a node, the one whose header the other header
dominates is the inner one. -/
theorem Natural.ssubset (hv : v.Linked) (hroot : root < v.size)
    (hl : v.Natural (.compute v root) l) (hl' : v.Natural (.compute v root) l')
    (hn : n ∈ l.nodes) (hn' : n ∈ l'.nodes) (hreach : v.Reaches root n)
    (hne : l'.header ≠ l.header) (hdom : v.Dominates root l.header l'.header) :
    l'.nodes ⊂ l.nodes := by
  have hheader' : v.Dominates root l'.header n :=
    (Dominators.dominates_iff hv hroot hreach).1 (hl'.dominates_of_mem hv hn')
  have hreach' : v.Reaches root l'.header := hheader'.reaches hreach
  -- The outer header is not in the inner loop: the headers would dominate each other.
  have houtside : l.header ∉ l'.nodes := by
    intro hmem
    have hreached : v.Reaches root l.header := hdom.reaches hreach'
    have hback := (Dominators.dominates_iff hv hroot hreached).1 (hl'.dominates_of_mem hv hmem)
    exact hne (hback.antisymm hdom hreached)
  have hsub : l'.nodes ⊆ l.nodes := by
    intro m hm
    obtain ⟨front, hfront, -⟩ := hl'.exists_path hv hl'.header_mem hm
    obtain ⟨path, hpath, hinside⟩ := hl'.exists_path hv hm hn'
    refine hl.mem_of_path hv (hreach'.trans ⟨front, hfront⟩) hpath (fun hmem => ?_) hn
    exact houtside (hinside l.header hmem)
  exact (Set.ssubset_iff_of_subset hsub).2 ⟨l.header, hl.header_mem, houtside⟩

end View

namespace Cfg

/-- **Loops nest.**  Two loops with different headers are disjoint, or the
nodes of one are some but not all of the nodes of the other.  If they share a
node, one header strictly dominates the other, and the loop of the dominated
header is the inner one. -/
theorem loops_nest {c : Cfg} (hc : c.graph.Built) {l l' : NaturalLoop}
    (hl : l ∈ c.loopForest.loops) (hl' : l' ∈ c.loopForest.loops) (hne : l.header ≠ l'.header) :
    (Disjoint l.nodes l'.nodes ∨ l.nodes ⊂ l'.nodes ∨ l'.nodes ⊂ l.nodes) ∧
    ((l.nodes ∩ l'.nodes).Nonempty →
      c.dominators.strictlyDominates l.header l'.header = true ∧ l'.nodes ⊂ l.nodes ∨
      c.dominators.strictlyDominates l'.header l.header = true ∧ l.nodes ⊂ l'.nodes) := by
  have hv : c.view.Linked := hc.linked
  have hnatural : c.view.Natural c.dominators l := View.natural_of_mem hl
  have hnatural' : c.view.Natural c.dominators l' := View.natural_of_mem hl'
  have hshared : (l.nodes ∩ l'.nodes).Nonempty →
      c.dominators.strictlyDominates l.header l'.header = true ∧ l'.nodes ⊂ l.nodes ∨
      c.dominators.strictlyDominates l'.header l.header = true ∧ l.nodes ⊂ l'.nodes := by
    rintro ⟨n, hn, hn'⟩
    have hdom := hnatural.dominates_of_mem hv hn
    have hdom' := hnatural'.dominates_of_mem hv hn'
    obtain ⟨hroot, hreach⟩ : entry < c.view.size ∧ c.view.Reaches entry n := by
      by_cases hheader : l.header = n
      · exact Dominators.reaches_of_dominates hv (fun h => hne (hheader.trans h.symm)) hdom'
      · exact Dominators.reaches_of_dominates hv hheader hdom
    have hpaths := (Dominators.dominates_iff hv hroot hreach).1 hdom
    have hpaths' := (Dominators.dominates_iff hv hroot hreach).1 hdom'
    rcases hpaths.total hpaths' hreach with hover | hover
    · refine .inl ⟨Dominators.strictlyDominates_iff.2 ⟨hne, ?_⟩, ?_⟩
      · exact (Dominators.dominates_iff hv hroot (hpaths'.reaches hreach)).2 hover
      · exact hnatural.ssubset hv hroot hnatural' hn hn' hreach hne.symm hover
    · refine .inr ⟨Dominators.strictlyDominates_iff.2 ⟨hne.symm, ?_⟩, ?_⟩
      · exact (Dominators.dominates_iff hv hroot (hpaths.reaches hreach)).2 hover
      · exact hnatural'.ssubset hv hroot hnatural hn' hn hreach hne hover
  refine ⟨?_, hshared⟩
  rcases Set.disjoint_or_nonempty_inter l.nodes l'.nodes with hdisjoint | hboth
  · exact .inl hdisjoint
  · rcases hshared hboth with ⟨-, hinside⟩ | ⟨-, hinside⟩
    · exact .inr (.inr hinside)
    · exact .inr (.inl hinside)

/-- A loop in a loop, and a jump into the inner one that nothing leads
to. -/
def nestedLoops : List Instruction :=
  [⟨0, .nop⟩, ⟨1, .nop⟩, ⟨2, .branch .conditional 1⟩, ⟨3, .branch .conditional 0⟩,
    ⟨4, .return none⟩, ⟨5, .branch .unconditional 2⟩]

/-- The loops with the headers 2 and 3 share node 7, to which the jump leads
as well; the loop of the dominated header 3 is the inner one. -/
theorem loops_nest_nestedLoops :
    ∃ c, build none nestedLoops [] .default = .ok c ∧ c.graph.Built ∧
      ∃ l l', c.loopForest.loops = [l, l'] ∧ l.header = 2 ∧ l'.header = 3 ∧
        7 ∈ l.nodes ∩ l'.nodes ∧ 7 ∈ c.view.succ 6 ∧ 6 ∉ l.nodes ∧
        c.dominators.strictlyDominates 2 3 = true ∧ l'.nodes ⊂ l.nodes := by
  let c : Cfg := ⟨none, (Layout.of nestedLoops []).graph .default⟩
  have hbuild : build none nestedLoops [] .default = .ok c := build_eq_ok_iff.2 ⟨by decide, rfl⟩
  have hbuilt : c.graph.Built := (build_wired hbuild).built
  obtain ⟨l, l', hloops⟩ : ∃ l l', c.loopForest.loops = [l, l'] :=
    List.length_eq_two.1 (by decide +kernel)
  have hfacts : c.loopForest.loops.map (fun l => (l.header, l.body.toList)) =
      [(2, [2, 3, 4, 7]), (3, [3, 7])] := by decide +kernel
  rw [hloops] at hfacts
  simp only [List.map_cons, List.map_nil, List.cons.injEq, Prod.mk.injEq, and_true] at hfacts
  obtain ⟨⟨hheader, hbody⟩, hheader', hbody'⟩ := hfacts
  have hmem : ∀ n, n ∈ l.nodes ↔ n ∈ [2, 3, 4, 7] := by
    intro n
    rw [← hbody, BitSet.mem_toList, NaturalLoop.mem_nodes]
  have hmem' : 7 ∈ l'.nodes := by
    rw [NaturalLoop.mem_nodes, ← BitSet.mem_toList, hbody']
    decide
  have hboth : 7 ∈ l.nodes ∩ l'.nodes := ⟨(hmem 7).2 (by decide), hmem'⟩
  have hl : l ∈ c.loopForest.loops := by rw [hloops]; exact List.mem_cons_self
  have hl' : l' ∈ c.loopForest.loops := by rw [hloops]; simp
  have hne : l.header ≠ l'.header := by rw [hheader, hheader']; decide
  have hnest := (loops_nest hbuilt hl hl' hne).2 ⟨7, hboth⟩
  rw [hheader, hheader'] at hnest
  have hinner : ¬ c.dominators.strictlyDominates 3 2 = true := by decide +kernel
  obtain ⟨hstrict, hinside⟩ := hnest.resolve_right fun h => hinner h.1
  exact ⟨c, hbuild, hbuilt, l, l', hloops, hheader, hheader', hboth, by decide +kernel,
    fun h => absurd ((hmem 6).1 h) (by decide), hstrict, hinside⟩

end Cfg

end MethodFlow
