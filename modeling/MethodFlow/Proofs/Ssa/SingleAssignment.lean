import Mathlib.Data.List.Nodup
import MethodFlow.Proofs.Ssa.Phis

/-!
# Single assignment and dominance

Every version is defined once, at the place that the table names, and what is
read has been defined on every way there.

The first half compares two lists: the table, and the definitions as they
stand in the blocks.  Both hold the same entries, and neither holds one twice.

The second half follows renaming down the dominator tree.  What carries it is
`Ssa.InScope`: every current version has a site in force, that is one that
dominates the node and, within the node, stands earlier.  The phi nodes and
the definitions of a node bring in sites of the node itself; a child keeps what
is in force at the end of its parent, because dominance is transitive and a
child does not dominate its parent.  A root keeps only the sites at the entry,
which are in force everywhere.  The entry does not dominate a node that it
does not reach; that exception is part of what "in force" says.

## Main results

* `Ssa.mem_definitions`, `Ssa.nodup_definitions`: the blocks define what the
  table names, each version once.
* `Ssa.InForce.child`, `Ssa.InScope.renameCode`, `Ssa.inScope_entering`: what a
  step down the tree, the code of a node and the whole tree keep.
* `SsaForm.defined_once_and_dominated`: single assignment and dominance of all
  reads.
-/

namespace MethodFlow

/-! ## Definitions and reads -/

/-- The definitions of the block of a node: the version, the variable that the
code defines and the place. -/
def SsaBlock.definitions (b : SsaBlock) (n : NodeId) :
    List (SsaId × Option Variable × DefSite) :=
  b.phis.map (fun phi => (phi.result, some phi.origin, .phi n)) ++
    b.code.zipIdx.filterMap fun (i, k) =>
      i.defined.map fun id => (id, i.instruction.op.defined, .instruction n k)

/-- All definitions of a form. -/
def SsaForm.definitions (f : SsaForm) : List (SsaId × Option Variable × DefSite) :=
  f.blocks.zipIdx.flatMap fun (b, n) => b.definitions n

/-- **Single assignment**: every version is defined once, where the table says. -/
structure SsaForm.SingleAssignment (f : SsaForm) : Prop where
  /-- No version is defined twice. -/
  once : (f.definitions.map Prod.fst).Nodup
  /-- The versions that a phi node or an instruction defines are those of the
  table that are not defined at the entry, each for its variable and at its
  site. -/
  sited : ∀ {id : SsaId} {x : Option Variable} {site : DefSite},
    (id, x, site) ∈ f.definitions ↔
      ∃ v, f.table[id]? = some v ∧ v.site ≠ .entry ∧ x = some v.origin ∧ site = v.site
  /-- The versions at the entry are the versions 0. -/
  zero : ∀ v ∈ f.table, v.site = .entry ↔ v.version = 0
  /-- The versions of a variable are numbered without gaps. -/
  numbered : ∀ x, (f.versions x).map SsaVar.version = List.range (f.versions x).length

/-- A form renames a graph: it has the instructions of the graph, a version for
each definition and, for each operand, a version of the variable. -/
structure SsaForm.Renames (f : SsaForm) (c : Cfg) : Prop where
  code : f.blocks.map (fun b => b.code.map SsaInstruction.instruction) = c.view.nodes.map c.codeOf
  defined : ∀ b ∈ f.blocks, ∀ i ∈ b.code,
    i.defined.isSome = i.instruction.op.defined.isSome
  uses : ∀ b ∈ f.blocks, ∀ i ∈ b.code,
    i.uses.map (fun id => f.table[id]?.map SsaVar.origin) = i.instruction.op.used.map some

/-- A version may be read in a node: the block of its definition dominates the
node, or nothing leads from the entry to the node and it is version 0. -/
def SsaVar.Available (v : SsaVar) (c : Cfg) (n : NodeId) : Prop :=
  c.dominators.dominates v.site.block n = true ∨
    (¬ c.view.Reaches Cfg.entry n ∧ v.version = 0)

/-- **Dominance of reads**: what is read has been defined. -/
structure SsaForm.DominatedReads (f : SsaForm) (c : Cfg) : Prop where
  /-- An operand of an instruction is available in the block, and what the
  block itself defines by an instruction is defined by an earlier one. -/
  code : ∀ {n k : Nat} {b : SsaBlock} {i : SsaInstruction}, f.blocks[n]? = some b →
    b.code[k]? = some i → ∀ id ∈ i.uses, ∃ v, f.table[id]? = some v ∧
      v.Available c n ∧ ∀ j, v.site = .instruction n j → j < k
  /-- An operand of a phi node is available in the predecessor. -/
  phis : ∀ b ∈ f.blocks, ∀ phi ∈ b.phis, ∀ o ∈ phi.operands,
    ∃ v, f.table[o.value]? = some v ∧ v.Available c o.predecessor

namespace Ssa

variable {c : Cfg} {table : List (Variable × DefSite)} {code : List Instruction}
  {block : SsaBlock} {env : Env} {x : Variable} {site : DefSite} {id j k n p : Nat}

/-! ## The renamed code -/

/-- An instruction is renamed with the versions current behind the
instructions before it. -/
theorem getElem?_renameCode (table : List (Variable × DefSite)) (n k : Nat) (env : Env)
    (code : List Instruction) (j : Nat) :
    (renameCode table n k env code).1[j]? = code[j]?.map fun i =>
      ⟨i, i.op.defined.bind fun x => table.idxOf? (x, .instruction n (k + j)),
        i.op.used.filterMap (renameCode table n k env (code.take j)).2.get?⟩ := by
  induction code generalizing j k env with
  | nil => rfl
  | cons i rest ih =>
      rw [renameCode_cons]
      cases j with
      | zero => rfl
      | succ j =>
          rw [List.getElem?_cons_succ, ih, List.getElem?_cons_succ, List.take_succ_cons,
            renameCode_cons, Nat.add_right_comm k 1 j]
          rfl

theorem map_instruction_renameCode (n k : Nat) (env : Env) :
    (renameCode table n k env code).1.map SsaInstruction.instruction = code := by
  refine List.ext_getElem? fun j => ?_
  rw [List.getElem?_map, getElem?_renameCode, Option.map_map]
  cases code[j]? <;> rfl

/-- The versions current before the instruction `k` of a node. -/
def current (c : Cfg) (n k : Nat) : Env :=
  (renameCode (versions c) n 0 (withPhis (versions c) n (entering c n)) ((c.codeOf n).take k)).2

theorem current_length (c : Cfg) (n : NodeId) :
    current c n (c.codeOf n).length = leaving c n := by
  rw [current, List.take_length, leaving_eq]

theorem names_current (hc : c.Wired) (n k : Nat) : Names c (versions c) (current c n k) :=
  ((names_entering hc n).withPhis n).renameCode

/-- An instruction of the form: that of the graph, with the number of its
definition and the current versions of its operands. -/
theorem getElem?_blockCode (hc : c.Wired) {i : SsaInstruction}
    (hblock : (SsaForm.ofCfg c).blocks[n]? = some block) :
    block.code[k]? = some i ↔ ∃ i₀, (c.codeOf n)[k]? = some i₀ ∧
      i = ⟨i₀, i₀.op.defined.bind fun x => (versions c).idxOf? (x, .instruction n k),
        i₀.op.used.filterMap (current c n k).get?⟩ := by
  obtain ⟨-, rfl⟩ := (getElem?_blocks hc).1 hblock
  rw [nodeBlock, nodeCode, getElem?_renameCode, Nat.zero_add, Option.map_eq_some_iff]
  exact exists_congr fun _ => and_congr_right' eq_comm

theorem exists_of_mem_code (hc : c.Wired) {i : SsaInstruction}
    (hblock : block ∈ (SsaForm.ofCfg c).blocks) (hi : i ∈ block.code) :
    ∃ n k i₀, n < c.view.size ∧ (c.codeOf n)[k]? = some i₀ ∧
      i = ⟨i₀, i₀.op.defined.bind fun x => (versions c).idxOf? (x, .instruction n k),
        i₀.op.used.filterMap (current c n k).get?⟩ := by
  obtain ⟨n, hn⟩ := List.getElem?_of_mem hblock
  obtain ⟨k, hk⟩ := List.getElem?_of_mem hi
  obtain ⟨i₀, hcode, heq⟩ := (getElem?_blockCode hc hn).1 hk
  exact ⟨n, k, i₀, ((getElem?_blocks hc).1 hn).1, hcode, heq⟩

/-! ## Definitions -/

theorem mem_blockDefinitions {x : Option Variable} :
    (id, x, site) ∈ block.definitions n ↔
      (∃ phi ∈ block.phis, phi.result = id ∧ some phi.origin = x ∧ .phi n = site) ∨
        ∃ i k, block.code[k]? = some i ∧ i.defined = some id ∧
          i.instruction.op.defined = x ∧ .instruction n k = site := by
  simp only [SsaBlock.definitions, List.mem_append, List.mem_map, List.mem_filterMap,
    Option.map_eq_some_iff, Prod.mk.injEq, Prod.exists, List.mk_mem_zipIdx_iff_getElem?]
  constructor
  · rintro (hphi | ⟨i, k, hi, id', hid, rfl, hx, hsite⟩)
    · exact .inl hphi
    · exact .inr ⟨i, k, hi, hid, hx, hsite⟩
  · rintro (hphi | ⟨i, k, hi, hid, hx, hsite⟩)
    · exact .inl hphi
    · exact .inr ⟨i, k, hi, id, hid, rfl, hx, hsite⟩

theorem block_of_mem_definitions {x : Option Variable}
    (h : (id, x, site) ∈ block.definitions n) : site.block = n := by
  rcases mem_blockDefinitions.1 h with ⟨phi, -, -, -, rfl⟩ | ⟨i, k, -, -, -, rfl⟩ <;> rfl

theorem mem_formDefinitions {f : SsaForm} {e : SsaId × Option Variable × DefSite} :
    e ∈ f.definitions ↔
      ∃ n, ∃ block : SsaBlock, f.blocks[n]? = some block ∧ e ∈ block.definitions n := by
  simp only [SsaForm.definitions, List.mem_flatMap, Prod.exists,
    List.mk_mem_zipIdx_iff_getElem?]
  exact exists_comm

/-- The blocks define what the table names, the versions at the entry apart. -/
theorem mem_definitions (hc : c.Wired) {x : Option Variable} :
    (id, x, site) ∈ (SsaForm.ofCfg c).definitions ↔
      ∃ y, (versions c)[id]? = some (y, site) ∧ site ≠ .entry ∧ x = some y := by
  rw [mem_formDefinitions]
  constructor
  · rintro ⟨n, block, hblock, hmem⟩
    rcases mem_blockDefinitions.1 hmem with ⟨phi, hphi, rfl, rfl, rfl⟩ | ⟨i, k, hi, hid, rfl, rfl⟩
    · obtain ⟨-, rfl⟩ := (getElem?_blocks hc).1 hblock
      exact ⟨phi.origin, result_of_mem_phis hphi, DefSite.noConfusion, rfl⟩
    · obtain ⟨i, -, rfl⟩ := (getElem?_blockCode hc hblock).1 hi
      obtain ⟨y, hy, hidx⟩ := Option.bind_eq_some_iff.1 hid
      exact ⟨y, getElem?_of_idxOf? hidx, DefSite.noConfusion, hy⟩
  · rintro ⟨y, hget, hentry, rfl⟩
    have hmem := List.mem_of_getElem? hget
    have hblock := (getElem?_blocks hc).2 ⟨block_lt_of_mem_versions hc hmem, rfl⟩
    refine ⟨site.block, _, hblock, mem_blockDefinitions.2 ?_⟩
    cases site with
    | entry => exact absurd rfl hentry
    | phi n =>
        have hbare : (⟨id, y, []⟩ : Phi) ∈ barePhis (versions c) n := mem_barePhis.2 ⟨hget, rfl⟩
        exact .inl ⟨_, List.mem_map.2 ⟨_, hbare, rfl⟩, rfl, rfl, rfl⟩
    | instruction n k =>
        obtain ⟨-, i, hi, hy⟩ := mem_table.1 hmem
        -- The table is searched by entry, and no entry stands there twice.
        obtain ⟨id', hid'⟩ := Option.isSome_iff_exists.1 (List.isSome_idxOf?.2 hmem)
        have hsame : id' = id := by
          have hget' := getElem?_of_idxOf? hid'
          have hlt := (List.getElem?_eq_some_iff.1 hget').1
          exact (List.getElem?_inj hlt (nodup_table nodup_renameOrder)).1
            (hget'.trans hget.symm)
        refine .inr ⟨_, k, (getElem?_blockCode hc hblock).2 ⟨i, hi, rfl⟩, ?_, hy, rfl⟩
        show (i.op.defined.bind fun x => (versions c).idxOf? (x, .instruction n k)) = some id
        rw [hy, Option.bind_some, hid', hsame]

theorem nodup_definitions (hc : c.Wired) : (SsaForm.ofCfg c).definitions.Nodup := by
  refine List.pairwise_flatMap.2 ⟨?_, (pairwise_zipIdx_ne _).imp ?_⟩
  · rintro ⟨block, n⟩ hblock
    obtain ⟨-, rfl⟩ := (getElem?_blocks hc).1 (List.mk_mem_zipIdx_iff_getElem?.1 hblock)
    refine List.nodup_append.2 ⟨List.pairwise_map.2 ?_, List.pairwise_filterMap.2 ?_, ?_⟩
    · refine (ascends_phis_of_block c n).imp fun hab heq => ?_
      exact Ordered.ne_of_before hab (Option.some.inj (Prod.mk.inj (Prod.mk.inj heq).2).1)
    · refine (pairwise_zipIdx_ne _).imp fun hne e he f hf hef => ?_
      obtain ⟨id, -, rfl⟩ := Option.map_eq_some_iff.1 he
      obtain ⟨id', -, rfl⟩ := Option.map_eq_some_iff.1 hf
      exact hne (DefSite.instruction.inj (Prod.mk.inj (Prod.mk.inj hef).2).2).2
    · rintro e he f hf rfl
      obtain ⟨phi, -, rfl⟩ := List.mem_map.1 he
      obtain ⟨i, -, hi⟩ := List.mem_filterMap.1 hf
      obtain ⟨id, -, hid⟩ := Option.map_eq_some_iff.1 hi
      exact DefSite.noConfusion (Prod.mk.inj (Prod.mk.inj hid).2).2
  · rintro ⟨block, n⟩ ⟨block', n'⟩ hne e he f hf rfl
    exact hne ((block_of_mem_definitions he).symm.trans (block_of_mem_definitions hf))

theorem singleAssignment (hc : c.Wired) : (SsaForm.ofCfg c).SingleAssignment where
  once := by
    refine List.Nodup.map_on ?_ (nodup_definitions hc)
    rintro ⟨id, x, site⟩ he ⟨id', x', site'⟩ hf rfl
    obtain ⟨y, hy, -, rfl⟩ := (mem_definitions hc).1 he
    obtain ⟨y', hy', -, rfl⟩ := (mem_definitions hc).1 hf
    rw [hy] at hy'
    cases hy'
    rfl
  sited := by
    intro id x site
    rw [mem_definitions hc]
    constructor
    · rintro ⟨y, hget, hentry, rfl⟩
      obtain ⟨uses, htable⟩ := exists_table hc hget
      exact ⟨_, htable, hentry, rfl, rfl⟩
    · rintro ⟨v, hv, hentry, rfl, rfl⟩
      exact ⟨v.origin, (getElem?_versions_of_table hc hv).1, hentry, rfl⟩
  zero := by
    intro v hv
    obtain ⟨id, hid⟩ := List.getElem?_of_mem hv
    obtain ⟨hget, hversion, -⟩ := getElem?_versions_of_table hc hid
    rw [hversion]
    exact (versionOf_eq_zero_iff hget).symm
  numbered := map_version_versions hc

/-! ## Sites in force -/

/-- A site is in force before the instruction `k` of a node: its block dominates
the node, or it is the entry and nothing leads from there to the node; an
instruction of the node itself stands earlier. -/
structure InForce (c : Cfg) (n k : Nat) (site : DefSite) : Prop where
  dominates : c.dominators.dominates site.block n = true ∨
    (¬ c.view.Reaches Cfg.entry n ∧ site = .entry)
  earlier : ∀ {j : Nat}, site = .instruction n j → j < k

theorem InForce.mono (h : InForce c n k site) (hk : k ≤ j) : InForce c n j site where
  dominates := h.dominates
  earlier hsite := Nat.lt_of_lt_of_le (h.earlier hsite) hk

theorem inForce_entry (hc : c.Wired) (n k : Nat) : InForce c n k .entry where
  dominates := by
    by_cases hreach : c.view.Reaches Cfg.entry n
    · exact .inl ((Dominators.dominates_iff hc.linked hc.entry_lt hreach).2
        (c.view.root_dominates Cfg.entry n))
    · exact .inr ⟨hreach, rfl⟩
  earlier hsite := DefSite.noConfusion hsite

theorem inForce_phi (hc : c.Wired) (hn : n < c.view.size) (k : Nat) :
    InForce c n k (.phi n) where
  dominates := .inl (Dominators.dominates_self hc.linked hn)
  earlier hsite := DefSite.noConfusion hsite

theorem inForce_instruction (hc : c.Wired) (hn : n < c.view.size) (k : Nat) :
    InForce c n (k + 1) (.instruction n k) where
  dominates := .inl (Dominators.dominates_self hc.linked hn)
  earlier := by
    rintro j ⟨⟩
    exact Nat.lt_succ_self k

/-- A child keeps what is in force at its parent.  None of it stands in the
child, which would have to dominate its parent. -/
theorem InForce.child (hc : c.Wired) (hp : c.dominators.idom? n = some p)
    (h : InForce c p k site) : InForce c n 0 site := by
  have hreach := Dominators.reaches_of_idom? hc.linked hp
  have hclosest := Dominators.idom?_closest hc.linked hc.entry_lt hreach hp
  have hreachp := hclosest.dominates.reaches hreach
  have hdom : c.view.Dominates Cfg.entry site.block p := by
    rcases h.dominates with hdom | ⟨hunreached, -⟩
    · exact (Dominators.dominates_iff hc.linked hc.entry_lt hreachp).1 hdom
    · exact absurd hreachp hunreached
  refine ⟨.inl ?_, ?_⟩
  · exact (Dominators.dominates_iff hc.linked hc.entry_lt hreach).2
      (hdom.trans hclosest.dominates)
  · rintro j rfl
    exact absurd (hclosest.dominates.antisymm hdom hreach) hclosest.ne

/-! ## Versions in scope -/

/-- The current versions are versions of their variables, and their sites are
in force. -/
def InScope (c : Cfg) (n k : Nat) (env : Env) : Prop :=
  ∀ (x : Variable) (id : SsaId), env.get? x = some id →
    ∃ site, (versions c)[id]? = some (x, site) ∧ InForce c n k site

theorem InScope.mono (h : InScope c n k env) (hk : k ≤ j) : InScope c n j env := by
  intro x id hget
  obtain ⟨site, hsite, hforce⟩ := h x id hget
  exact ⟨site, hsite, hforce.mono hk⟩

theorem inScope_startEnv (hc : c.Wired) (n : NodeId) :
    InScope c n 0 (startEnv (versions c)) := by
  intro x id hget
  rcases get?_startEnv (versions c) x with ⟨k, hk, hstart⟩ | ⟨-, hstart⟩
  · rw [hget] at hstart
    cases hstart
    exact ⟨.entry, hk, inForce_entry hc n 0⟩
  · rw [hget] at hstart
    cases hstart

theorem InScope.withPhis (hc : c.Wired) (hn : n < c.view.size) (h : InScope c n k env) :
    InScope c n k (withPhis (versions c) n env) := by
  intro x id hget
  rcases get?_withPhis (versions c) n env x with ⟨j, hj, hphi⟩ | ⟨-, hsame⟩
  · rw [hget] at hphi
    cases hphi
    exact ⟨.phi n, hj, inForce_phi hc hn k⟩
  · exact h x id (hsame ▸ hget)

/-- Behind an instruction its own definition is in force too. -/
theorem InScope.behind (hc : c.Wired) (hn : n < c.view.size) (h : InScope c n k env)
    (i : Instruction) : InScope c n (k + 1) (behind (versions c) n k env i) := by
  have hold : InScope c n (k + 1) env := h.mono (Nat.le_succ k)
  unfold Ssa.behind
  split
  · next y id hy hid =>
    rw [hy, Option.bind_some] at hid
    intro x id' hget
    rw [SortedMap.get?_insert] at hget
    split at hget
    · next hxy =>
      cases hget
      exact ⟨.instruction n k, hxy ▸ getElem?_of_idxOf? hid, inForce_instruction hc hn k⟩
    · exact hold x id' hget
  · exact hold

theorem InScope.renameCode (hc : c.Wired) (hn : n < c.view.size) (h : InScope c n k env) :
    InScope c n (k + code.length) (renameCode (versions c) n k env code).2 := by
  induction code generalizing k env with
  | nil => exact h
  | cons i rest ih =>
      rw [renameCode_cons, List.length_cons, ← Nat.add_assoc, Nat.add_right_comm]
      exact ih (h.behind hc hn i)

theorem inScope_entering (hc : c.Wired) (hn : n < c.view.size) :
    InScope c n 0 (entering c n) := by
  induction n using Dominators.idom?_induction c.view Cfg.entry with
  | node n ih =>
      cases hp : c.dominators.idom? n with
      | none =>
          rw [entering_of_root hp]
          exact inScope_startEnv hc n
      | some p =>
          have hlt := (Dominators.idom?_lt hc.linked hp).1
          rw [entering_of_idom? hc hp, leaving_eq]
          intro x id hget
          obtain ⟨site, hsite, hforce⟩ :=
            ((ih p hp hlt).withPhis hc hlt).renameCode hc hlt x id hget
          exact ⟨site, hsite, hforce.child hc hp⟩

theorem inScope_current (hc : c.Wired) (hn : n < c.view.size) (hk : k ≤ (c.codeOf n).length) :
    InScope c n k (current c n k) := by
  have hlength : 0 + ((c.codeOf n).take k).length = k := by
    rw [Nat.zero_add, List.length_take, Nat.min_eq_left hk]
  have h : InScope c n (0 + ((c.codeOf n).take k).length) (current c n k) :=
    ((inScope_entering hc hn).withPhis hc hn).renameCode hc hn
  rwa [hlength] at h

/-- What is in force is available. -/
theorem InForce.available (h : InForce c n k site) (hc : c.Wired)
    (hget : (versions c)[id]? = some (x, site)) :
    ∃ v, (SsaForm.ofCfg c).table[id]? = some v ∧ v.Available c n ∧
      ∀ j, v.site = .instruction n j → j < k := by
  obtain ⟨uses, htable⟩ := exists_table hc hget
  refine ⟨_, htable, ?_, fun j hj => h.earlier hj⟩
  rcases h.dominates with hdom | ⟨hunreached, hentry⟩
  · exact .inl hdom
  · exact .inr ⟨hunreached, (versionOf_eq_zero_iff hget).2 hentry⟩

/-! ## Reads -/

theorem renames (hc : c.Wired) : (SsaForm.ofCfg c).Renames c where
  code := by
    refine List.ext_getElem? fun n => ?_
    rw [List.getElem?_map, List.getElem?_map, View.nodes]
    by_cases hn : n < c.view.size
    · rw [(getElem?_blocks hc).2 ⟨hn, rfl⟩, List.getElem?_range hn, Option.map_some,
        Option.map_some, nodeBlock, nodeCode, map_instruction_renameCode]
    · have hnone : (SsaForm.ofCfg c).blocks[n]? = none :=
        Option.eq_none_iff_forall_ne_some.2 fun b hb => hn ((getElem?_blocks hc).1 hb).1
      rw [hnone, List.getElem?_eq_none (by simpa using hn)]
      rfl
  defined := by
    intro b hb i hi
    obtain ⟨n, k, i, hn, hcode, rfl⟩ := exists_of_mem_code hc hb hi
    show (i.op.defined.bind fun x => _).isSome = i.op.defined.isSome
    cases hx : i.op.defined with
    | none => rfl
    | some x =>
        exact List.isSome_idxOf?.2 (mem_table.2 ⟨mem_renameOrder hc hn, i, hcode, hx⟩)
  uses := by
    intro b hb i hi
    obtain ⟨n, k, i, hn, hcode, rfl⟩ := exists_of_mem_code hc hb hi
    have hmem := List.mem_of_getElem? hcode
    refine (names_current hc n k).map_uses (fun x hx => mem_origins_of_used hn hmem hx) ?_
    intro x _ id hget
    obtain ⟨site, hsite⟩ := (names_current hc n k).own hget
    obtain ⟨uses, htable⟩ := exists_table hc hsite
    rw [htable]
    rfl

theorem dominatedReads (hc : c.Wired) : (SsaForm.ofCfg c).DominatedReads c where
  code := by
    intro n k b i hblock hi id hid
    have hn := ((getElem?_blocks hc).1 hblock).1
    obtain ⟨i, hcode, rfl⟩ := (getElem?_blockCode hc hblock).1 hi
    have hk := (List.getElem?_eq_some_iff.1 hcode).1
    obtain ⟨x, -, hget⟩ := List.mem_filterMap.1 hid
    obtain ⟨site, hsite, hforce⟩ := inScope_current hc hn (Nat.le_of_lt hk) x id hget
    exact hforce.available hc hsite
  phis := by
    intro b hb phi hphi o ho
    obtain ⟨n, hblock⟩ := List.getElem?_of_mem hb
    obtain ⟨-, rfl⟩ := (getElem?_blocks hc).1 hblock
    have hsource : o.predecessor ∈ sources c n := by
      rw [← predecessors_of_mem_phis hc hphi]
      exact List.mem_map_of_mem ho
    have hp := hc.linked.source_lt ((mem_sources hc).1 hsource)
    have hscope := inScope_current hc hp (Nat.le_refl _)
    rw [current_length] at hscope
    obtain ⟨site, hsite, hforce⟩ := hscope _ _ (operand_of_mem_phis hphi ho)
    obtain ⟨v, hv, havailable, -⟩ := hforce.available hc hsite
    exact ⟨v, hv, havailable⟩

end Ssa

/-- **Single assignment and dominance of reads.**  The form of a graph holds
its code, renamed.  Every version of the table is defined exactly once, at its
site: at the entry if and only if it is version 0, else by one phi node or one
instruction of its variable; and the versions of a variable are numbered 0, 1,
2 and so on.  The site of what an instruction reads dominates its block, and
precedes it there; the site of what a phi node takes from a predecessor
dominates the predecessor.  Only where nothing leads from the entry, version 0
may be read instead. -/
theorem SsaForm.defined_once_and_dominated {method : Option MethodRef}
    {code : List Instruction} {regions : List Region} {config : Config} {c : Cfg}
    (h : Cfg.build method code regions config = .ok c) :
    (SsaForm.ofCfg c).Renames c ∧ (SsaForm.ofCfg c).SingleAssignment ∧
      (SsaForm.ofCfg c).DominatedReads c := by
  have hc := Cfg.build_wired h
  exact ⟨Ssa.renames hc, Ssa.singleAssignment hc, Ssa.dominatedReads hc⟩

/-- The copy that is jumped over reads version 0, and its result flows into the
phi node before the return. -/
theorem SsaForm.defined_once_and_dominated_skipping :
    ∃ c, Cfg.build none (skipping ⟨"x", none, .local⟩) [] .default = .ok c ∧
      (SsaForm.ofCfg c).definitions.map (fun e => (e.1, e.2.2)) =
        [(2, .instruction 2 0), (1, .phi 3), (3, .instruction 4 0)] ∧
      (SsaForm.ofCfg c).blocks.map (fun b => b.code.map SsaInstruction.uses) =
        [[], [], [[], []], [[1]], [[0]]] ∧
      (SsaForm.ofCfg c).SingleAssignment ∧ (SsaForm.ofCfg c).DominatedReads c := by
  have hbuild : Cfg.build none (skipping ⟨"x", none, .local⟩) [] .default =
      .ok ⟨none, (Cfg.Layout.of (skipping ⟨"x", none, .local⟩) []).graph .default⟩ :=
    Cfg.build_eq_ok_iff.2 ⟨by decide, rfl⟩
  exact ⟨_, hbuild, by decide +kernel, by decide +kernel,
    (defined_once_and_dominated hbuild).2⟩

end MethodFlow
