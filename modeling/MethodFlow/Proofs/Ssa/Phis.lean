import MethodFlow.Proofs.Ssa.Meaning

/-!
# Phi nodes and predecessors

A phi node gets its operands from the other side: every node that is renamed
adds, to the phi nodes of its successors, the versions that are current at its
end.  That the operands are those of the predecessors, one for each, rests on
four facts: every node is renamed, once (`Ssa.mem_renameOrder`,
`Ssa.nodup_renameOrder`), no edge is doubled
(`Digraph.Built.nodup_predecessors`), and every variable has a current version
at the end of every node, reached or not (`Ssa.names_leaving`).

## Main results

* `Ssa.predecessors_of_mem_phis`: the operands come from the nodes that lead
  to the block.
* `SsaForm.phis_match_predecessors`: operands, order and places of the phi
  nodes of a form.
-/

namespace MethodFlow

namespace Ssa

variable {c : Cfg} {phi : Phi} {n p : Nat}

/-! ## Operands -/

/-- The nodes that lead to a node, in the order of renaming. -/
def sources (c : Cfg) (n : NodeId) : List NodeId :=
  (renameOrder c c.dominators).filter fun p => (c.view.succ p).contains n

theorem mem_sources (hc : c.Wired) : p ∈ sources c n ↔ n ∈ c.view.succ p := by
  rw [sources, List.mem_filter, List.contains_iff_mem, and_iff_right_iff_imp]
  exact fun hedge => mem_renameOrder hc (hc.linked.source_lt hedge)

theorem nodup_sources (c : Cfg) (n : NodeId) : (sources c n).Nodup := nodup_renameOrder.filter _

theorem perm_sources (hc : c.Wired) (n : NodeId) :
    (sources c n).Perm (c.graph.predecessors n) :=
  (List.perm_ext_iff_of_nodup (nodup_sources c n) (hc.built.nodup_predecessors n)).2 fun _ =>
    (mem_sources hc).trans hc.linked.mem_pred.symm

/-- A phi node takes from each of the nodes that lead to it the version current
at its end. -/
theorem operands_of_mem_phis (h : phi ∈ (nodeBlock c n).phis) :
    phi.operands = (sources c n).filterMap fun p =>
      ((leaving c p).get? phi.origin).map fun id => ⟨id, p⟩ := by
  obtain ⟨bare, -, rfl⟩ := List.mem_map.1 h
  rfl

/-- No operand is missing: the variable of a phi node has a version
everywhere. -/
theorem predecessors_of_mem_phis (hc : c.Wired) (h : phi ∈ (nodeBlock c n).phis) :
    phi.operands.map PhiOperand.predecessor = sources c n := by
  have hx := mem_origins_of_mem_versions (List.mem_of_getElem? (result_of_mem_phis h))
  rw [operands_of_mem_phis h, List.map_filterMap]
  conv_rhs => rw [← List.filterMap_some (l := sources c n)]
  refine List.filterMap_congr fun p _ => ?_
  obtain ⟨id, hid⟩ := (names_leaving hc p).total hx
  rw [hid]
  rfl

/-- An operand is the version current at the end of its predecessor. -/
theorem operand_of_mem_phis (h : phi ∈ (nodeBlock c n).phis) {o : PhiOperand}
    (ho : o ∈ phi.operands) :
    (leaving c o.predecessor).get? phi.origin = some o.value := by
  rw [operands_of_mem_phis h] at ho
  obtain ⟨p, -, hp⟩ := List.mem_filterMap.1 ho
  obtain ⟨id, hid, rfl⟩ := Option.map_eq_some_iff.1 hp
  exact hid

/-! ## Order -/

/-- The phi nodes of a block stand in the order of their variables. -/
theorem ascends_phis_of_block (c : Cfg) (n : NodeId) :
    (nodeBlock c n).phis.Pairwise fun a b => Ordered.before a.origin b.origin = true := by
  have htable : (versions c).zipIdx.Pairwise fun e f => Ascends e.1 f.1 := by
    rw [← List.pairwise_map, List.zipIdx_map_fst]
    exact ascends_table nodup_renameOrder
  refine List.pairwise_map.2 (List.pairwise_filterMap.2 (htable.imp ?_))
  rintro ⟨e, i⟩ ⟨f, j⟩ hef a ha b hb
  simp only [Option.ite_none_right_eq_some, Option.some.injEq] at ha hb
  obtain ⟨he, rfl⟩ := ha
  obtain ⟨hf, rfl⟩ := hb
  exact hef (he.trans hf.symm)

/-- The exit gets no phi nodes. -/
theorem phis_exit (c : Cfg) : (nodeBlock c Cfg.exit).phis = [] := by
  rw [List.eq_nil_iff_forall_not_mem]
  intro phi hphi
  have hmem := (mem_table.1 (List.mem_of_getElem? (result_of_mem_phis hphi))).2
  simpa using (List.mem_filter.1 hmem).2

end Ssa

/-- The operands of a phi node match a list of predecessors: there is exactly
one for each, no other, and all are versions of the variable of the node. -/
structure SsaForm.Matches (f : SsaForm) (predecessors : List NodeId) (phi : Phi) : Prop where
  once : (phi.operands.map PhiOperand.predecessor).Nodup
  exact : (phi.operands.map PhiOperand.predecessor).Perm predecessors
  own : ∀ o ∈ phi.operands, ∃ v, f.table[o.value]? = some v ∧ v.origin = phi.origin

/-- **Phi nodes match predecessors.**  The form of a graph has a block for each
node.  Every phi node of a block has exactly one operand for each predecessor
of the block, reached from the entry or not, and no other; the operands are
versions of its variable.  A block has at most one phi node for a variable, in
the order of the variables, and the exit has none. -/
theorem SsaForm.phis_match_predecessors {method : Option MethodRef} {code : List Instruction}
    {regions : List Region} {config : Config} {c : Cfg}
    (h : Cfg.build method code regions config = .ok c) :
    (SsaForm.ofCfg c).blocks.length = c.size ∧
      ∀ (n : NodeId) (block : SsaBlock), (SsaForm.ofCfg c).blocks[n]? = some block →
        (∀ phi ∈ block.phis, (SsaForm.ofCfg c).Matches (c.graph.predecessors n) phi) ∧
        block.phis.Pairwise (fun a b => Ordered.before a.origin b.origin = true) ∧
        (n = Cfg.exit → block.phis = []) := by
  have hc := Cfg.build_wired h
  refine ⟨Ssa.length_blocks hc, fun n block hblock => ?_⟩
  obtain ⟨-, rfl⟩ := (Ssa.getElem?_blocks hc).1 hblock
  refine ⟨fun phi hphi => ⟨?_, ?_, fun o ho => ?_⟩, Ssa.ascends_phis_of_block c n, ?_⟩
  · rw [Ssa.predecessors_of_mem_phis hc hphi]
    exact Ssa.nodup_sources c n
  · rw [Ssa.predecessors_of_mem_phis hc hphi]
    exact Ssa.perm_sources hc n
  · have hget := Ssa.operand_of_mem_phis hphi ho
    obtain ⟨site, hsite⟩ := (Ssa.names_leaving hc o.predecessor).own hget
    obtain ⟨uses, htable⟩ := Ssa.exists_table hc hsite
    exact ⟨_, htable, rfl⟩
  · rintro rfl
    exact Ssa.phis_exit c

/-- A jump to the return over a second definition, which nothing leads to. -/
def skipping (x : Variable) : List Instruction :=
  [⟨0, .loadConstant x⟩, ⟨1, .branch .unconditional 3⟩, ⟨2, .copy x x⟩,
    ⟨3, .return (some x)⟩]

/-- The block of the return has an operand also for the definition that is
jumped over. -/
theorem SsaForm.phis_match_predecessors_skipping :
    ∃ c block phi, Cfg.build none (skipping ⟨"x", none, .local⟩) [] .default = .ok c ∧
      (SsaForm.ofCfg c).blocks[3]? = some block ∧ block.phis = [phi] ∧
      phi.operands = [⟨2, 2⟩, ⟨3, 4⟩] ∧ (SsaForm.ofCfg c).Matches [2, 4] phi := by
  have hbuild : Cfg.build none (skipping ⟨"x", none, .local⟩) [] .default =
      .ok ⟨none, (Cfg.Layout.of (skipping ⟨"x", none, .local⟩) []).graph .default⟩ :=
    Cfg.build_eq_ok_iff.2 ⟨by decide, rfl⟩
  have heval : (SsaForm.ofCfg ⟨none, (Cfg.Layout.of (skipping ⟨"x", none, .local⟩) []).graph
      .default⟩).blocks[3]?.map (fun b => b.phis.map Phi.operands) =
        some [[⟨2, 2⟩, ⟨3, 4⟩]] := by decide +kernel
  obtain ⟨block, hblock, hphis⟩ := Option.map_eq_some_iff.1 heval
  obtain ⟨phi, hphi, hoperands⟩ := List.map_eq_singleton_iff.1 hphis
  have hmatch := ((phis_match_predecessors hbuild).2 3 block hblock).1 phi
    (hphi ▸ List.mem_singleton_self phi)
  exact ⟨_, block, phi, hbuild, hblock, hphi, hoperands, hmatch⟩

end MethodFlow
