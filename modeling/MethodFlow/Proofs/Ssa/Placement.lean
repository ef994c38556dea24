import MethodFlow.Proofs.Graph.Joins
import MethodFlow.Proofs.Ssa.Phis

/-!
# Where phi nodes are placed

Phi nodes are placed by dominance: a variable gets them at the iterated
frontier of the nodes that assign it, the entry among them.  What they are for
is a matter of paths: a phi node is needed where control can come from two
different assignments, a phi node being an assignment as well.  In a graph
that the entry reaches throughout the two agree (`View.Rooted.isLeast_joins`),
and counting the phi nodes as assignments makes no difference
(`View.exists_converge_of_isLeast`).

## Main results

* `Ssa.hasPhi_iff`: a variable has a phi node where its iterated frontier
  says, except at the exit.
* `SsaForm.phis_at_joins`: phi nodes are where the paths of two assignments
  converge.
-/

namespace MethodFlow

/-- The nodes that assign a variable: those with an instruction that defines
it, and the entry. -/
def Cfg.assigning (c : Cfg) (x : Variable) : Set NodeId :=
  {n | n = Cfg.entry ∨ ∃ i ∈ c.codeOf n, i.op.defined = some x}

/-- The block of a node has a phi node for a variable. -/
def SsaForm.HasPhi (f : SsaForm) (x : Variable) (n : NodeId) : Prop :=
  ∃ block, f.blocks[n]? = some block ∧ ∃ phi ∈ block.phis, phi.origin = x

theorem Cfg.lt_size_of_mem_codeOf {c : Cfg} {n : NodeId} {i : Instruction}
    (h : i ∈ c.codeOf n) : n < c.size := by
  by_contra hn
  have hnone : c.graph.nodes[n]? = none := Array.getElem?_eq_none (Nat.not_lt.1 hn)
  simp [codeOf, node?, Digraph.data?, hnone] at h

theorem Cfg.Wired.rooted {c : Cfg} (hc : c.Wired)
    (hreach : ∀ n < c.size, c.view.Reaches Cfg.entry n) : c.view.Rooted Cfg.entry where
  linked := hc.linked
  root_lt := hc.entry_lt
  reaches := hreach
  not_to_root := hc.not_to_entry

namespace Ssa

variable {c : Cfg} {x : Variable} {n : Nat}

theorem setOf_mem_defBlocks (c : Cfg) (x : Variable) :
    {n | n ∈ defBlocks c x} = c.assigning x := by
  ext n
  show n ∈ defBlocks c x ↔ n = Cfg.entry ∨ ∃ i ∈ c.codeOf n, i.op.defined = some x
  simp only [defBlocks, View.nodes, List.mem_append, List.mem_filter, List.mem_range,
    List.any_eq_true, beq_iff_eq, List.mem_singleton]
  constructor
  · rintro (⟨-, hdef⟩ | hentry)
    · exact .inr hdef
    · exact .inl hentry
  · rintro (hentry | ⟨i, hi, hdef⟩)
    · exact .inr hentry
    · exact .inl ⟨Cfg.lt_size_of_mem_codeOf hi, i, hi, hdef⟩

/-- A variable that the code does not mention has an empty iterated frontier:
only the entry assigns it. -/
theorem mem_origins_of_mem_iteratedFrontier (h : c.view.Rooted Cfg.entry)
    (hn : n ∈ c.dominators.iteratedFrontier (defBlocks c x)) : x ∈ origins c := by
  by_contra hx
  have hclosed : c.dominators.FrontierClosed
      {m | m ∈ defBlocks c x ∧ m < c.view.size} ∅ := by
    rintro m (⟨hm, -⟩ | hm) f hf
    · have hassign : m ∈ c.assigning x := setOf_mem_defBlocks c x ▸ hm
      rcases hassign with rfl | ⟨i, hi, hdef⟩
      · exact h.not_mem_frontier_root hf
      · exact hx (mem_origins_of_defined (Cfg.lt_size_of_mem_codeOf hi) hi hdef)
    · exact hm.elim
  exact (Dominators.isLeast_iteratedFrontier h.linked (defBlocks c x)).2 hclosed hn

theorem hasPhi_iff_mem_versions (hc : c.Wired) :
    (SsaForm.ofCfg c).HasPhi x n ↔ (x, .phi n) ∈ versions c := by
  constructor
  · rintro ⟨block, hblock, phi, hphi, rfl⟩
    obtain ⟨-, rfl⟩ := (getElem?_blocks hc).1 hblock
    exact List.mem_of_getElem? (result_of_mem_phis hphi)
  · intro h
    obtain ⟨id, hid⟩ := List.getElem?_of_mem h
    have hbare : (⟨id, x, []⟩ : Phi) ∈ barePhis (versions c) n := mem_barePhis.2 ⟨hid, rfl⟩
    exact ⟨nodeBlock c n, (getElem?_blocks hc).2 ⟨block_lt_of_mem_versions hc h, rfl⟩, _,
      List.mem_map_of_mem hbare, rfl⟩

/-- A variable has phi nodes at its iterated frontier, except at the exit. -/
theorem hasPhi_iff (hc : c.Wired) (h : c.view.Rooted Cfg.entry) :
    (SsaForm.ofCfg c).HasPhi x n ↔
      n ∈ c.dominators.iteratedFrontier (defBlocks c x) ∧ n ≠ Cfg.exit := by
  rw [hasPhi_iff_mem_versions hc, versions, mem_table]
  simp only [phiBlocks, List.mem_filter, decide_eq_true_eq]
  exact and_iff_right_of_imp fun hmem => mem_origins_of_mem_iteratedFrontier h hmem.1

end Ssa

/-- **Phi nodes are at the joins.**  In a graph that the entry reaches
throughout, the iterated frontier of any nodes that include the entry is the
set of their iterated joins.  So the nodes with a phi node for a variable are
the iterated joins of the nodes that assign it, the exit excepted.  These are
simply the nodes where paths converge from two nodes that assign the variable:
no phi node is there on account of other phi nodes alone. -/
theorem SsaForm.phis_at_joins {method : Option MethodRef} {code : List Instruction}
    {regions : List Region} {config : Config} {c : Cfg}
    (h : Cfg.build method code regions config = .ok c)
    (hreach : ∀ n < c.size, c.view.Reaches Cfg.entry n) :
    (∀ defs : List NodeId, Cfg.entry ∈ defs →
      IsLeast {T : Set NodeId | c.view.JoinClosed {n | n ∈ defs} T}
        {n | n ∈ c.dominators.iteratedFrontier defs}) ∧
    (∀ x, ∃ T : Set NodeId, IsLeast {T : Set NodeId | c.view.JoinClosed (c.assigning x) T} T ∧
      ∀ n, (SsaForm.ofCfg c).HasPhi x n ↔ n ∈ T ∧ n ≠ Cfg.exit) ∧
    ∀ x n, (SsaForm.ofCfg c).HasPhi x n ↔
      n ≠ Cfg.exit ∧ ∃ a ∈ c.assigning x, ∃ b ∈ c.assigning x, ∃ xs ys,
        c.view.Converge a b n xs ys := by
  have hc := Cfg.build_wired h
  have hrooted := hc.rooted hreach
  have hleast : ∀ x, IsLeast {T : Set NodeId | c.view.JoinClosed (c.assigning x) T}
      {n | n ∈ c.dominators.iteratedFrontier (Ssa.defBlocks c x)} := by
    intro x
    rw [← Ssa.setOf_mem_defBlocks]
    exact hrooted.isLeast_joins (List.mem_append_right _ (List.mem_singleton_self _))
  refine ⟨fun defs hdefs => hrooted.isLeast_joins hdefs,
    fun x => ⟨_, hleast x, fun n => Ssa.hasPhi_iff hc hrooted⟩, fun x n => ⟨fun hphi => ?_, ?_⟩⟩
  · obtain ⟨hmem, hexit⟩ := (Ssa.hasPhi_iff hc hrooted).1 hphi
    exact ⟨hexit, View.exists_converge_of_isLeast (hleast x) hmem⟩
  · rintro ⟨hexit, a, ha, b, hb, xs, ys, hjoin⟩
    exact (Ssa.hasPhi_iff hc hrooted).2 ⟨(hleast x).1 (.inl ha) (.inl hb) hjoin, hexit⟩

/-- A loop that assigns a variable again on one of two ways through it. -/
def reassigning (x : Variable) : List Instruction :=
  [⟨0, .loadConstant x⟩, ⟨1, .branch .conditional 5⟩, ⟨2, .branch .conditional 4⟩,
    ⟨3, .loadConstant x⟩, ⟨4, .branch .unconditional 1⟩, ⟨5, .return (some x)⟩]

/-- The two ways meet at node 5, and the second assignment meets the first at
the head of the loop, node 7. -/
theorem SsaForm.phis_at_joins_reassigning :
    ∃ c, Cfg.build none (reassigning ⟨"x", none, .local⟩) [] .default = .ok c ∧
      (∀ n < c.size, c.view.Reaches Cfg.entry n) ∧
      c.view.Converge 2 6 7 [2, 7] [6, 5, 7] ∧
      IsLeast {T : Set NodeId | c.view.JoinClosed {n | n ∈ [0, 2, 6]} T} {n | n ∈ [5, 7]} ∧
      (SsaForm.ofCfg c).HasPhi ⟨"x", none, .local⟩ 7 := by
  let c : Cfg :=
    ⟨none, (Cfg.Layout.of (reassigning ⟨"x", none, .local⟩) []).graph .default⟩
  have hbuild : Cfg.build none (reassigning ⟨"x", none, .local⟩) [] .default = .ok c :=
    Cfg.build_eq_ok_iff.2 ⟨by decide, rfl⟩
  have hreach : ∀ n < c.size, c.view.Reaches Cfg.entry n := by
    have hcomputed : ∀ n < c.size, (Dominators.reachable c.view 0).contains n = true := by
      decide +kernel
    intro n hn
    exact ((Dominators.contains_reachable (Cfg.build_wired hbuild).linked).1 (hcomputed n hn)).2
  have hjoin : c.view.Converge 2 6 7 [2, 7] [6, 5, 7] :=
    View.converge_of_fronts .start (by decide +kernel) (.step .start (by decide +kernel))
      (by decide +kernel) (by decide)
  have htwo : 2 ∈ c.assigning ⟨"x", none, .local⟩ := .inr (by decide +kernel)
  have hsix : 6 ∈ c.assigning ⟨"x", none, .local⟩ := .inr (by decide +kernel)
  have hall : c.dominators.iteratedFrontier [0, 2, 6] = [5, 7] := by decide +kernel
  obtain ⟨hleast, -, hphis⟩ := phis_at_joins hbuild hreach
  exact ⟨c, hbuild, hreach, hjoin, hall ▸ hleast [0, 2, 6] (by decide),
    (hphis _ 7).2 ⟨by decide, 2, htwo, 6, hsix, _, _, hjoin⟩⟩

end MethodFlow
