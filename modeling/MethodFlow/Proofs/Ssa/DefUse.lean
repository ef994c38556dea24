import Mathlib.Data.List.Count
import Mathlib.Data.List.Perm.Basic
import MethodFlow.Proofs.Ssa.SingleAssignment

/-!
# Where versions are read

A version lists the places that read it.  The list is written while the
blocks are renamed, each block with its own instructions and with those
operands of phi nodes, in the blocks behind it, that it is the predecessor
for.  The blocks themselves show their reads in another order: a block with
its instructions and with all operands of its own phi nodes.  Both list the
same reads, each as often.  For the instructions this is a matter of order.
For the phi nodes two nested loops are exchanged, nodes with successors for
nodes with predecessors, and nodes with phi nodes for phi nodes with operands;
this is right because an edge is listed once at either end and an operand
once for each edge.

## Main results

* `Ssa.perm_reads`: what renaming records are the reads of the blocks.
* `SsaForm.count_reads`: how often a place reads a version.
* `SsaForm.uses_exact`: the lists of reads of a form, its dead versions and
  the numbers in its table.
-/

namespace MethodFlow

/-! ## Lists of lists -/

/-- Two nested loops can be exchanged. -/
theorem perm_flatMap_comm {α β γ : Type} (l : List α) (m : List β) (f : α → β → List γ) :
    (l.flatMap fun a => m.flatMap (f a)).Perm (m.flatMap fun b => l.flatMap fun a => f a b) := by
  induction l with
  | nil => simp
  | cons a l ih =>
      simp only [List.flatMap_cons]
      exact (ih.append_left _).trans (List.flatMap_append_perm m (f a) _)

theorem flatMap_filter {α β : Type} (p : α → Bool) (f : α → List β) (l : List α) :
    (l.filter p).flatMap f = l.flatMap fun a => if p a then f a else [] := by
  induction l with
  | nil => rfl
  | cons a l ih =>
      rw [List.flatMap_cons, ← ih]
      by_cases ha : p a = true <;> simp [ha]

/-- Of a list of lists, an element that only the list at `n` can hold is
counted there. -/
theorem count_flatMap_zipIdx {α β : Type} [BEq β] [LawfulBEq β] (l : List α)
    {f : α × Nat → List β} {b : β} {n : Nat} (h : ∀ a m, b ∈ f (a, m) → m = n) :
    (l.zipIdx.flatMap f).count b = l[n]?.elim 0 fun a => (f (a, n)).count b := by
  induction l using List.reverseRecOn with
  | nil => rfl
  | append_singleton l a ih =>
      have hlast : (f (a, l.length)).count b = if n = l.length then (f (a, n)).count b else 0 := by
        split
        · next hn => rw [hn]
        · next hn => exact List.count_eq_zero.2 fun hb => hn (h a _ hb).symm
      rw [List.zipIdx_append, List.flatMap_append, List.count_append, ih, List.zipIdx_singleton,
        List.flatMap_singleton, Nat.zero_add, hlast]
      rcases Nat.lt_trichotomy n l.length with hlt | heq | hgt
      · rw [List.getElem?_append_left hlt, if_neg (Nat.ne_of_lt hlt), Nat.add_zero]
      · rw [if_pos heq, List.getElem?_eq_none (Nat.le_of_eq heq.symm), heq,
          List.getElem?_concat_length]
        simp
      · rw [if_neg (Nat.ne_of_gt hgt), List.getElem?_eq_none (Nat.le_of_lt hgt),
          List.getElem?_eq_none (by simp; omega)]
        rfl

/-! ## Reads -/

/-- The block of the instruction or phi node that reads. -/
def UseSite.block : UseSite → NodeId
  | .instruction n _ => n
  | .phi n _ => n

/-- The reads of the block of a node: the version and the place. -/
def SsaBlock.reads (b : SsaBlock) (n : NodeId) : List (SsaId × UseSite) :=
  (b.code.zipIdx.flatMap fun (i, k) => i.uses.map fun id => (id, .instruction n k)) ++
    b.phis.zipIdx.flatMap fun (phi, k) =>
      (phi.operands.map PhiOperand.value).map fun id => (id, .phi n k)

/-- All reads of a form. -/
def SsaForm.reads (f : SsaForm) : List (SsaId × UseSite) :=
  f.blocks.zipIdx.flatMap fun (b, n) => b.reads n

/-- How often a place reads a version: as often as it is an operand there, and
never where there is no instruction or phi node. -/
def SsaForm.readsAt (f : SsaForm) (id : SsaId) : UseSite → Nat
  | .instruction n k =>
      (f.blocks[n]?.bind fun b => b.code[k]?).elim 0 fun i => i.uses.count id
  | .phi n k =>
      (f.blocks[n]?.bind fun b => b.phis[k]?).elim 0 fun phi =>
        (phi.operands.map PhiOperand.value).count id

/-- Some instruction or phi node reads the version. -/
def SsaForm.Reads (f : SsaForm) (id : SsaId) : Prop :=
  ∃ b ∈ f.blocks, (∃ i ∈ b.code, id ∈ i.uses) ∨ ∃ phi ∈ b.phis, ∃ o ∈ phi.operands, o.value = id

instance (f : SsaForm) (id : SsaId) : Decidable (f.Reads id) :=
  inferInstanceAs (Decidable (∃ b ∈ f.blocks, _))

namespace SsaForm

variable {f : SsaForm} {id n k : Nat}

theorem mem_blockReads {b : SsaBlock} {site : UseSite} :
    (id, site) ∈ b.reads n ↔
      (∃ i k, b.code[k]? = some i ∧ id ∈ i.uses ∧ .instruction n k = site) ∨
        ∃ phi k, b.phis[k]? = some phi ∧ (∃ o ∈ phi.operands, o.value = id) ∧
          .phi n k = site := by
  simp only [SsaBlock.reads, List.mem_append, List.mem_flatMap, List.mem_map, Prod.exists,
    List.mk_mem_zipIdx_iff_getElem?, Prod.mk.injEq]
  constructor
  · rintro (⟨i, k, hi, id', hid, rfl, hsite⟩ | ⟨phi, k, hphi, id', hid, rfl, hsite⟩)
    · exact .inl ⟨i, k, hi, hid, hsite⟩
    · exact .inr ⟨phi, k, hphi, hid, hsite⟩
  · rintro (⟨i, k, hi, hid, hsite⟩ | ⟨phi, k, hphi, hid, hsite⟩)
    · exact .inl ⟨i, k, hi, id, hid, rfl, hsite⟩
    · exact .inr ⟨phi, k, hphi, id, hid, rfl, hsite⟩

theorem block_of_mem_blockReads {b : SsaBlock} {site : UseSite} (h : (id, site) ∈ b.reads n) :
    site.block = n := by
  rcases mem_blockReads.1 h with ⟨i, k, -, -, rfl⟩ | ⟨phi, k, -, -, rfl⟩ <;> rfl

theorem mem_formReads {e : SsaId × UseSite} :
    e ∈ f.reads ↔ ∃ n, ∃ b : SsaBlock, f.blocks[n]? = some b ∧ e ∈ b.reads n := by
  simp only [SsaForm.reads, List.mem_flatMap, Prod.exists, List.mk_mem_zipIdx_iff_getElem?]
  exact exists_comm

/-- A version is read if it is among the reads. -/
theorem reads_iff : f.Reads id ↔ ∃ site, (id, site) ∈ f.reads := by
  constructor
  · rintro ⟨b, hb, hread⟩
    obtain ⟨n, hn⟩ := List.getElem?_of_mem hb
    rcases hread with ⟨i, hi, hid⟩ | ⟨phi, hphi, hid⟩
    · obtain ⟨k, hk⟩ := List.getElem?_of_mem hi
      exact ⟨.instruction n k, mem_formReads.2 ⟨n, b, hn, mem_blockReads.2
        (.inl ⟨i, k, hk, hid, rfl⟩)⟩⟩
    · obtain ⟨k, hk⟩ := List.getElem?_of_mem hphi
      exact ⟨.phi n k, mem_formReads.2 ⟨n, b, hn, mem_blockReads.2 (.inr ⟨phi, k, hk, hid, rfl⟩)⟩⟩
  · rintro ⟨site, hmem⟩
    obtain ⟨n, b, hn, hread⟩ := mem_formReads.1 hmem
    refine ⟨b, List.mem_of_getElem? hn, ?_⟩
    rcases mem_blockReads.1 hread with ⟨i, k, hi, hid, -⟩ | ⟨phi, k, hphi, hid, -⟩
    · exact .inl ⟨i, List.mem_of_getElem? hi, hid⟩
    · exact .inr ⟨phi, List.mem_of_getElem? hphi, hid⟩

/-- The operands at one place, of those at the places of a list. -/
private theorem count_operands {α : Type} (l : List α) (operands : α → List SsaId)
    {site : Nat → UseSite} (hsite : Function.Injective site) (id : SsaId) (k : Nat) :
    (l.zipIdx.flatMap fun (a, j) => (operands a).map fun id => (id, site j)).count (id, site k) =
      l[k]?.elim 0 fun a => (operands a).count id := by
  rw [count_flatMap_zipIdx (n := k)]
  · refine congrArg (l[k]?.elim 0) (funext fun a => ?_)
    exact List.count_map_of_injective (operands a) _ (fun a b h => (Prod.mk.inj h).1) id
  · intro a j hmem
    obtain ⟨id', -, heq⟩ := List.mem_map.1 hmem
    exact hsite (Prod.mk.inj heq).2

theorem count_blockReads_instruction (b : SsaBlock) (n k : Nat) (id : SsaId) :
    (b.reads n).count (id, .instruction n k) = b.code[k]?.elim 0 fun i => i.uses.count id := by
  rw [SsaBlock.reads, List.count_append,
    count_operands b.code SsaInstruction.uses fun j k h => (UseSite.instruction.inj h).2,
    List.count_eq_zero.2 (by simp), Nat.add_zero]

theorem count_blockReads_phi (b : SsaBlock) (n k : Nat) (id : SsaId) :
    (b.reads n).count (id, .phi n k) =
      b.phis[k]?.elim 0 fun phi => (phi.operands.map PhiOperand.value).count id := by
  rw [SsaBlock.reads, List.count_append,
    count_operands b.phis (fun phi => phi.operands.map PhiOperand.value)
      fun j k h => (UseSite.phi.inj h).2,
    List.count_eq_zero.2 (by simp), Nat.zero_add]

/-- The reads of a form at each place. -/
theorem count_reads (f : SsaForm) (id : SsaId) (site : UseSite) :
    f.reads.count (id, site) = f.readsAt id site := by
  rw [reads, count_flatMap_zipIdx f.blocks fun b m h => (block_of_mem_blockReads h).symm]
  cases site with
  | instruction n k =>
      simp only [readsAt, UseSite.block]
      cases f.blocks[n]? with
      | none => rfl
      | some b => exact count_blockReads_instruction b n k id
  | phi n k =>
      simp only [readsAt, UseSite.block]
      cases f.blocks[n]? with
      | none => rfl
      | some b => exact count_blockReads_phi b n k id

end SsaForm

namespace Ssa

variable {c : Cfg} {v : SsaVar} {id n p : Nat}

/-! ## What renaming records -/

theorem reads_ofCfg (hc : c.Wired) :
    (SsaForm.ofCfg c).reads = c.view.nodes.flatMap fun n => (nodeBlock c n).reads n := by
  have hblocks : (SsaForm.ofCfg c).blocks.zipIdx =
      c.view.nodes.map fun n => (nodeBlock c n, n) := by
    refine List.ext_getElem? fun n => ?_
    rw [List.getElem?_zipIdx, List.getElem?_map, View.nodes]
    by_cases hn : n < c.view.size
    · rw [(getElem?_blocks hc).2 ⟨hn, rfl⟩, List.getElem?_range hn, Nat.zero_add]
      rfl
    · rw [List.getElem?_eq_none (by rw [length_blocks hc]; omega),
        List.getElem?_eq_none (by simpa using hn)]
      rfl
  rw [SsaForm.reads, hblocks, List.flatMap_map]

theorem perm_renameOrder (hc : c.Wired) :
    (renameOrder c c.dominators).Perm c.view.nodes := by
  refine (List.perm_ext_iff_of_nodup nodup_renameOrder List.nodup_range).2 fun n => ?_
  rw [List.mem_range]
  exact ⟨lt_of_mem_renameOrder, mem_renameOrder hc⟩

/-- The reads of the phi nodes of `n` that are recorded when `p` is renamed. -/
private def readsFrom (c : Cfg) (p n : NodeId) : List (SsaId × UseSite) :=
  phiReads (leaving c p) n 0 (barePhis (versions c) n)

/-- All nodes together record each operand of a phi node. -/
private theorem perm_readsFrom (c : Cfg) (n : NodeId) :
    ((sources c n).flatMap fun p => readsFrom c p n).Perm
      ((nodeBlock c n).phis.zipIdx.flatMap fun (phi, k) =>
        (phi.operands.map PhiOperand.value).map fun id => (id, UseSite.phi n k)) := by
  have hbare : ∀ p, readsFrom c p n = (nodeBlock c n).phis.zipIdx.filterMap fun (phi, k) =>
      ((leaving c p).get? phi.origin).map fun id => (id, .phi n k) := fun p =>
    (phiReads_map (leaving c p) n 0 (barePhis (versions c) n)
      (fun phi => { phi with operands := operandsFrom c n (renameOrder c c.dominators) phi.origin })
      fun _ => rfl).symm
  simp only [hbare, List.filterMap_eq_flatMap_toList]
  refine (perm_flatMap_comm _ _ _).trans (List.Perm.flatMap_left _ ?_)
  rintro ⟨phi, k⟩ hmem
  have hphi : phi ∈ (nodeBlock c n).phis :=
    List.mem_of_getElem? (List.mk_mem_zipIdx_iff_getElem?.1 hmem)
  rw [← List.filterMap_eq_flatMap_toList, operands_of_mem_phis hphi, List.map_filterMap,
    List.map_filterMap]
  refine .of_eq (List.filterMap_congr fun p _ => ?_)
  rw [Option.map_map, Option.map_map]
  rfl

/-- The reads of phi nodes, recorded node by node for the successors, are
those of the phi nodes of all nodes. -/
private theorem perm_successors (hc : c.Wired) :
    ((renameOrder c c.dominators).flatMap fun p => (c.view.succ p).flatMap (readsFrom c p)).Perm
      (c.view.nodes.flatMap fun n => (sources c n).flatMap fun p => readsFrom c p n) := by
  have hsucc : ∀ p, ((c.view.succ p).flatMap (readsFrom c p)).Perm
      (c.view.nodes.flatMap fun n =>
        if (c.view.succ p).contains n then readsFrom c p n else []) := by
    intro p
    rw [← flatMap_filter]
    refine List.Perm.flatMap_right _ ?_
    refine (List.perm_ext_iff_of_nodup (hc.built.nodup_successors p)
      (List.nodup_range.filter _)).2 fun n => ?_
    rw [List.mem_filter, List.mem_range, List.contains_iff_mem]
    exact ⟨fun h => ⟨hc.linked.target_lt h, h⟩, And.right⟩
  refine (List.Perm.flatMap_left _ fun p _ => hsucc p).trans ?_
  refine (perm_flatMap_comm _ _ _).trans (.of_eq (List.flatMap_congr fun n _ => ?_))
  rw [sources, flatMap_filter]

/-- **Renaming records the reads of the blocks**, in another order. -/
theorem perm_reads (hc : c.Wired) :
    ((renameOrder c c.dominators).flatMap (nodeReads c)).Perm (SsaForm.ofCfg c).reads := by
  rw [reads_ofCfg hc]
  have hphis := (perm_successors hc).trans
    (List.Perm.flatMap_left _ fun n _ => perm_readsFrom c n)
  -- The reads of instructions and of phi nodes are told apart, put into the
  -- order of the nodes and joined again.
  refine (List.flatMap_append_perm _ _ _).symm.trans ?_
  refine (((perm_renameOrder hc).flatMap_right _).append hphis).trans ?_
  exact List.flatMap_append_perm _ _ _

/-- A version lists the reads of the blocks that read it. -/
theorem perm_uses (hc : c.Wired) (h : (SsaForm.ofCfg c).table[id]? = some v) :
    v.uses.Perm ((SsaForm.ofCfg c).reads.filterMap fun r =>
      if r.1 = id then some r.2 else none) := by
  rw [table_ofCfg hc, getElem?_rows] at h
  obtain ⟨e, -, rfl⟩ := Option.map_eq_some_iff.1 h
  exact (perm_reads hc).filterMap _

theorem count_uses (hc : c.Wired) (h : (SsaForm.ofCfg c).table[id]? = some v) (site : UseSite) :
    v.uses.count site = (SsaForm.ofCfg c).readsAt id site := by
  rw [← SsaForm.count_reads, (perm_uses hc h).count_eq, List.count_filterMap,
    List.count_eq_countP]
  refine List.countP_congr fun r _ => ?_
  obtain ⟨id', site'⟩ := r
  by_cases hid : id' = id <;> simp [hid]

theorem mem_uses (hc : c.Wired) (h : (SsaForm.ofCfg c).table[id]? = some v) {site : UseSite} :
    site ∈ v.uses ↔ (id, site) ∈ (SsaForm.ofCfg c).reads := by
  rw [← List.count_pos_iff, count_uses hc h, ← SsaForm.count_reads, List.count_pos_iff]

/-- Nothing reads a version whose list is empty. -/
theorem isDead_iff (hc : c.Wired) (h : (SsaForm.ofCfg c).table[id]? = some v) :
    v.isDead = true ↔ ¬ (SsaForm.ofCfg c).Reads id := by
  rw [SsaVar.isDead, List.isEmpty_iff, List.eq_nil_iff_forall_not_mem, SsaForm.reads_iff,
    not_exists]
  exact forall_congr' fun site => not_congr (mem_uses hc h)

theorem dead_eq (hc : c.Wired) :
    (SsaForm.ofCfg c).dead = ((SsaForm.ofCfg c).table.zipIdx.filter fun e =>
      !decide ((SsaForm.ofCfg c).Reads e.2)).map Prod.fst := by
  have htable : (SsaForm.ofCfg c).dead =
      ((SsaForm.ofCfg c).table.zipIdx.filter fun e => e.1.isDead).map Prod.fst := by
    rw [SsaForm.dead, ← List.zipIdx_map_fst 0 (SsaForm.ofCfg c).table, List.filter_map,
      List.zipIdx_map_fst]
    rfl
  rw [htable]
  refine congrArg _ (List.filter_congr ?_)
  rintro ⟨v, id⟩ hmem
  rw [Bool.eq_iff_iff, isDead_iff hc (List.mk_mem_zipIdx_iff_getElem?.1 hmem)]
  simp

/-! ## Numbers -/

/-- What is read stands in the table. -/
theorem exists_of_reads (hc : c.Wired) (h : (SsaForm.ofCfg c).Reads id) :
    ∃ v, (SsaForm.ofCfg c).table[id]? = some v := by
  obtain ⟨b, hb, ⟨i, hi, hid⟩ | ⟨phi, hphi, o, ho, rfl⟩⟩ := h
  · obtain ⟨n, hn⟩ := List.getElem?_of_mem hb
    obtain ⟨k, hk⟩ := List.getElem?_of_mem hi
    obtain ⟨v, hv, -⟩ := (dominatedReads hc).code hn hk id hid
    exact ⟨v, hv⟩
  · obtain ⟨v, hv, -⟩ := (dominatedReads hc).phis b hb phi hphi o ho
    exact ⟨v, hv⟩

/-- No two versions of a variable have the same site. -/
theorem eq_of_same_site {w : SsaVar} {k : Nat} (hc : c.Wired)
    (hv : (SsaForm.ofCfg c).table[id]? = some v) (hw : (SsaForm.ofCfg c).table[k]? = some w)
    (horigin : w.origin = v.origin) (hsite : w.site = v.site) : k = id := by
  have hid := (getElem?_versions_of_table hc hv).1
  have hk := (getElem?_versions_of_table hc hw).1
  rw [horigin, hsite] at hk
  exact (List.getElem?_inj (List.getElem?_eq_some_iff.1 hk).1 (nodup_table nodup_renameOrder)).1
    (hk.trans hid.symm)

end Ssa

/-- The number of the version of a variable at a site: what the blocks call
the version that they define there, or what the form calls the version at the
entry. -/
def SsaForm.Numbers (f : SsaForm) (id : SsaId) (x : Variable) (site : DefSite) : Prop :=
  (id, some x, site) ∈ f.definitions ∨
    ((f.initial? x).map SsaVar.id = some id ∧ site = .entry)

/-- **Exact lists of reads**: what the table says of the versions is what the
blocks show. -/
structure SsaForm.ExactUses (f : SsaForm) : Prop where
  /-- A version lists each place as often as the place reads it. -/
  counts : ∀ {id : SsaId} {v : SsaVar}, f.table[id]? = some v →
    ∀ site, v.uses.count site = f.readsAt id site
  /-- The dead versions are those that no instruction and no phi node reads. -/
  dead : f.dead = (f.table.zipIdx.filter fun e => !decide (f.Reads e.2)).map Prod.fst
  /-- Each version knows its number in the table. -/
  ids : ∀ {id : SsaId} {v : SsaVar}, f.table[id]? = some v → v.id = id
  /-- What is read stands in the table. -/
  listed : ∀ {id : SsaId}, f.Reads id → ∃ v, f.table[id]? = some v
  /-- Each version stands in the table at its number. -/
  indexed : ∀ {id : SsaId} {x : Variable} {site : DefSite},
    f.Numbers id x site ↔ ∃ v, f.table[id]? = some v ∧ v.origin = x ∧ v.site = site
  /-- No version stands there twice. -/
  once : ∀ {id k : SsaId} {v w : SsaVar}, f.table[id]? = some v → f.table[k]? = some w →
    w.origin = v.origin → w.site = v.site → k = id

namespace Ssa

variable {c : Cfg} {v : SsaVar} {x : Variable} {site : DefSite} {id : Nat}

/-- A variable has one version at the entry. -/
theorem initial?_eq_some_iff (hc : c.Wired) :
    ((SsaForm.ofCfg c).initial? x).map SsaVar.id = some id ↔
      ∃ v, (SsaForm.ofCfg c).table[id]? = some v ∧ v.origin = x ∧ v.site = .entry := by
  have hzero := (singleAssignment hc).zero
  have hsound : ∀ w, (SsaForm.ofCfg c).initial? x = some w →
      (SsaForm.ofCfg c).table[w.id]? = some w ∧ w.origin = x ∧ w.site = .entry := by
    intro w hfind
    obtain ⟨hmem, horigin⟩ := List.mem_filter.1 (List.mem_of_find?_eq_some hfind)
    obtain ⟨k, hk⟩ := List.getElem?_of_mem hmem
    have hversion : w.version = 0 := by simpa using List.find?_some hfind
    rw [(getElem?_versions_of_table hc hk).2.2]
    exact ⟨hk, by simpa using horigin, (hzero w hmem).2 hversion⟩
  constructor
  · intro hinitial
    obtain ⟨w, hw, rfl⟩ := Option.map_eq_some_iff.1 hinitial
    exact ⟨w, hsound w hw⟩
  · rintro ⟨v, hv, rfl, hsite⟩
    have hmem := List.mem_of_getElem? hv
    cases hinitial : (SsaForm.ofCfg c).initial? v.origin with
    | none =>
        have hnone := List.find?_eq_none.1 hinitial v (List.mem_filter.2 ⟨hmem, by simp⟩)
        exact absurd ((hzero v hmem).1 hsite) (by simpa using hnone)
    | some w =>
        obtain ⟨hw, horigin, hentry⟩ := hsound w hinitial
        exact congrArg some (eq_of_same_site hc hv hw horigin (hentry.trans hsite.symm))

theorem numbers_iff (hc : c.Wired) : (SsaForm.ofCfg c).Numbers id x site ↔
    ∃ v, (SsaForm.ofCfg c).table[id]? = some v ∧ v.origin = x ∧ v.site = site := by
  constructor
  · rintro (hdef | ⟨hinitial, rfl⟩)
    · obtain ⟨v, hv, -, horigin, hsite⟩ := (singleAssignment hc).sited.1 hdef
      exact ⟨v, hv, (Option.some.inj horigin).symm, hsite.symm⟩
    · exact (initial?_eq_some_iff hc).1 hinitial
  · rintro ⟨v, hv, rfl, rfl⟩
    by_cases hentry : v.site = .entry
    · exact .inr ⟨(initial?_eq_some_iff hc).2 ⟨v, hv, rfl, hentry⟩, hentry⟩
    · exact .inl ((singleAssignment hc).sited.2 ⟨v, hv, hentry, rfl, rfl⟩)

end Ssa

/-- **Lists of reads are exact.**  In the form of a graph every version lists
an instruction as often as the version is among its operands, a phi node as
often as it is the value of one of its operands, and no other place.  So the
dead versions are those that no instruction and no phi node reads.  Every
number that is read stands for a version of the table, and every version,
whether a phi node, an instruction or the entry defines it, stands in the
table once, at its number, which it also knows. -/
theorem SsaForm.uses_exact {method : Option MethodRef} {code : List Instruction}
    {regions : List Region} {config : Config} {c : Cfg}
    (h : Cfg.build method code regions config = .ok c) : (SsaForm.ofCfg c).ExactUses := by
  have hc := Cfg.build_wired h
  exact ⟨Ssa.count_uses hc, Ssa.dead_eq hc, fun hv => (Ssa.getElem?_versions_of_table hc hv).2.2,
    Ssa.exists_of_reads hc, Ssa.numbers_iff hc, Ssa.eq_of_same_site hc⟩

/-- A loop that passes a variable to a call twice and keeps the result in it. -/
def doubling (x : Variable) : List Instruction :=
  [⟨0, .loadConstant x⟩, ⟨1, .branch .conditional 4⟩,
    ⟨2, .call (some x) ⟨"T", "F", "()"⟩ [x, x] .static⟩, ⟨3, .branch .unconditional 1⟩,
    ⟨4, .return none⟩]

/-- The version of the phi node lists the call twice, and nothing reads the
version at the entry. -/
theorem SsaForm.uses_exact_doubling :
    ∃ c v, Cfg.build none (doubling ⟨"x", none, .local⟩) [] .default = .ok c ∧
      (SsaForm.ofCfg c).table[1]? = some v ∧ v.uses.count (.instruction 4 0) = 2 ∧
      (SsaForm.ofCfg c).dead.map SsaVar.label = ["x_0"] ∧ ¬ (SsaForm.ofCfg c).Reads 0 ∧
      (SsaForm.ofCfg c).ExactUses := by
  have hbuild : Cfg.build none (doubling ⟨"x", none, .local⟩) [] .default =
      .ok ⟨none, (Cfg.Layout.of (doubling ⟨"x", none, .local⟩) []).graph .default⟩ :=
    Cfg.build_eq_ok_iff.2 ⟨by decide, rfl⟩
  have huses := uses_exact hbuild
  have hread : (SsaForm.ofCfg ⟨none, (Cfg.Layout.of (doubling ⟨"x", none, .local⟩) []).graph
      .default⟩).Reads 1 := by decide +kernel
  obtain ⟨v, hv⟩ := huses.listed hread
  refine ⟨_, v, hbuild, hv, ?_, by decide +kernel, by decide +kernel, huses⟩
  rw [huses.counts hv]
  decide +kernel

end MethodFlow
