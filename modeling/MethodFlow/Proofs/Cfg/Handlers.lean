import MethodFlow.Proofs.Cfg.Runs

/-!
# Handlers of protected blocks

Every bound of a region begins a block, so a region protects a block as a
whole or not at all, although only the first instruction of the block is asked
(`Layout.Sound.protects_start`).  With exceptional edges, each block with a
protected instruction is therefore joined to the blocks where the handler is
entered.

## Main results

* `Cfg.Layout.Sound.start?_iff`: which block begins at an offset.
* `Cfg.handler_of_protected`: exactly one block begins at an entry of the
  handler, and every protected block has an edge to it.
-/

namespace MethodFlow

namespace Cfg

variable {code : List Instruction} {regions : List Region} {config : Config}
  {method : Option MethodRef} {c : Cfg} {x y : Instruction} {r : Region} {e m n o p s : Nat}

/-- The offset of the first instruction of a node. -/
def start? (c : Cfg) (n : NodeId) : Option Offset := (c.node? n).bind CfgNode.start?

private theorem nodup_eraseDups (l : List Nat) : l.eraseDups.Nodup := by
  induction hlen : l.length using Nat.strongRecOn generalizing l with
  | ind len ih =>
      cases l with
      | nil => simp
      | cons a rest =>
          rw [List.eraseDups_cons, List.nodup_cons]
          refine ⟨by simp [List.mem_eraseDups], ih _ ?_ _ rfl⟩
          have hle := List.length_filter_le (fun b => !b == a) rest
          rw [List.length_cons] at hlen
          omega

theorem nodup_leaders (code : List Instruction) (regions : List Region) :
    (leaders code regions).Nodup :=
  nodup_eraseDups _

/-- The range of a region begins at an instruction if it holds one: a range
behind the last instruction protects nothing. -/
theorem Admitted.tryStart_of_protects (h : Admitted config code r) (hascend : OffsetsAscend code)
    (hx : x ∈ code) (hprotects : r.protects x.offset = true) : IsOffset code r.tryStart := by
  rcases h.beginnings _ List.mem_cons_self with hoff | ⟨-, last, hlast, hbehind⟩
  · exact hoff
  · simp only [Region.protects, Bool.and_eq_true, decide_eq_true_eq] at hprotects
    exact absurd (Nat.lt_of_le_of_lt (offset_le_last hascend hx hlast) hbehind)
      (Nat.not_lt_of_le hprotects.1)

namespace Layout

variable {l : Layout}

/-- Blocks are numbered in the order of the leaders. -/
theorem Sound.blockAtIndex?_iff (hl : l.Sound) :
    l.blockAtIndex? s = some n ↔ ∃ k, n = k + 2 ∧ l.leaders[k]? = some s := by
  refine ⟨blockAtIndex?_eq_some, ?_⟩
  rintro ⟨k, rfl, hk⟩
  obtain ⟨b, hb⟩ := blockAtIndex?_isSome (List.mem_of_getElem? hk)
  obtain ⟨k', rfl, hk'⟩ := blockAtIndex?_eq_some hb
  have hnodup : l.leaders.Nodup := by
    rw [hl.leaders_eq]
    exact nodup_leaders _ _
  have hkk : k = k' :=
    (List.getElem?_inj (List.getElem?_eq_some_iff.1 hk).1 hnodup).1 (hk.trans hk'.symm)
  rw [hkk]
  exact hb

theorem Sound.getElem?_blockCode (hl : l.Sound) (hs : s ∈ l.leaders) (k : Nat)
    (hk : k < l.stop s - s) : (l.blockCode s)[k]? = l.code[s + k]? := by
  have hat := congrArg (fun list => list[k]?) (hl.map_blockCode hs)
  simp only [List.getElem?_map, List.getElem?_range' hk, Option.map_some, Nat.one_mul] at hat
  obtain ⟨z, hz, hsome⟩ := Option.map_eq_some_iff.1 hat
  rw [hz, ← hsome]

/-- A block begins with the instruction at its leader. -/
theorem Sound.head?_blockCode (hl : l.Sound) (hs : s ∈ l.leaders) :
    (l.blockCode s).head? = l.code[s]? := by
  have hlt := (hl.stop_spec hs).1
  rw [List.head?_eq_getElem?, hl.getElem?_blockCode hs 0 (by omega), Nat.add_zero]

theorem Sound.length_blockCode (hl : l.Sound) (hs : s ∈ l.leaders) :
    (l.blockCode s).length = l.stop s - s := by
  have hmap := congrArg List.length (hl.map_blockCode hs)
  rwa [List.length_map, List.length_map, List.length_range'] at hmap

/-- An instruction of a block stands between its leader and where it
stops. -/
theorem Sound.mem_blockCode (hl : l.Sound) (hs : s ∈ l.leaders) (hx : x ∈ l.blockCode s) :
    ∃ p, s ≤ p ∧ p < l.stop s ∧ l.code[p]? = some x := by
  obtain ⟨k, hk⟩ := List.getElem?_of_mem hx
  have hklt : k < l.stop s - s :=
    hl.length_blockCode hs ▸ (List.getElem?_eq_some_iff.1 hk).1
  rw [hl.getElem?_blockCode hs k hklt] at hk
  exact ⟨s + k, Nat.le_add_right s k, by omega, hk⟩

theorem codeOf_block (hc : c.graph = l.graph config) (hs : l.blockAtIndex? s = some n) :
    c.codeOf n = l.blockCode s := by
  rw [codeOf, node?, hc, data?_block hs]
  rfl

/-- Only blocks hold instructions. -/
theorem Sound.block_of_code (hl : l.Sound) (hc : c.graph = l.graph config)
    (hx : x ∈ c.codeOf n) :
    ∃ s, l.blockAtIndex? s = some n ∧ c.codeOf n = l.blockCode s := by
  have hnode : c.node? n = l.nodes[n]? := by rw [node?, hc, data?_graph]
  rcases n with _ | _ | k
  · rw [codeOf, hnode] at hx
    cases hx
  · rw [codeOf, hnode] at hx
    cases hx
  · rw [nodes, List.getElem?_cons_succ, List.getElem?_cons_succ, List.getElem?_map] at hnode
    cases hk : l.leaders[k]? with
    | none =>
        rw [codeOf, hnode, hk] at hx
        cases hx
    | some s =>
        have hs := hl.blockAtIndex?_iff.2 ⟨k, rfl, hk⟩
        exact ⟨s, hs, codeOf_block hc hs⟩

/-- The instructions of a node are instructions of the body. -/
theorem Sound.mem_code (hl : l.Sound) (hc : c.graph = l.graph config) (hx : x ∈ c.codeOf n) :
    x ∈ l.code := by
  obtain ⟨s, hs, hcode⟩ := hl.block_of_code hc hx
  rw [hcode] at hx
  obtain ⟨p, -, -, hp⟩ := hl.mem_blockCode (mem_leaders_of_blockAtIndex? hs) hx
  exact List.mem_of_getElem? hp

/-- A block starts at the offset of its leader. -/
theorem Sound.start?_block (hl : l.Sound) (hc : c.graph = l.graph config)
    (hs : l.blockAtIndex? s = some n) : c.start? n = l.code[s]?.map Instruction.offset := by
  rw [start?, node?, hc, data?_block hs, Option.bind_some, CfgNode.start?, CfgNode.code,
    hl.head?_blockCode (mem_leaders_of_blockAtIndex? hs)]

/-- The block that begins at an offset is the one of the leader there. -/
theorem Sound.start?_iff (hl : l.Sound) (hascend : OffsetsAscend l.code)
    (hc : c.graph = l.graph config) : c.start? n = some o ↔ l.blockAt? o = some n := by
  constructor
  · intro hstart
    have hcode : c.codeOf n ≠ [] := by
      intro hnil
      obtain ⟨node, hnode, hfirst⟩ := Option.bind_eq_some_iff.1 hstart
      rw [codeOf, hnode] at hnil
      rw [CfgNode.start?, show node.code = [] from hnil] at hfirst
      cases hfirst
    obtain ⟨x, hx⟩ := List.exists_mem_of_ne_nil _ hcode
    obtain ⟨s, hs, -⟩ := hl.block_of_code hc hx
    rw [hl.start?_block hc hs] at hstart
    obtain ⟨y, hy, rfl⟩ := Option.map_eq_some_iff.1 hstart
    exact blockAt?_of_blockAtIndex? hascend hy hs
  · intro hat
    obtain ⟨s, hindex, hs⟩ := blockAt?_eq_some hat
    obtain ⟨y, hy, hoff⟩ := indexOf?_eq_some hindex
    rw [hl.start?_block hc hs, hy, Option.map_some, hoff]

/-! ## Protected blocks -/

/-- A region that protects an instruction of a block protects its first one:
the block does not reach across the beginning of the range. -/
theorem Sound.protects_start (hl : l.Sound) (hascend : OffsetsAscend l.code)
    (hr : r ∈ l.regions) (hbegin : IsOffset l.code r.tryStart) (hs : s ∈ l.leaders)
    (hsp : s ≤ p) (hp : p < l.stop s) (hx : l.code[s]? = some x) (hy : l.code[p]? = some y)
    (h : r.protects y.offset = true) : r.protects x.offset = true := by
  simp only [Region.protects, Bool.and_eq_true, decide_eq_true_eq] at h ⊢
  have hxy : x.offset ≤ y.offset := hascend.le hx hy hsp
  obtain ⟨z, hz, hoff⟩ := hbegin
  obtain ⟨q, hq⟩ := List.getElem?_of_mem hz
  have hleader : q ∈ l.leaders := by
    rw [hl.leaders_eq]
    exact mem_leaders_of_boundary hr List.mem_cons_self hq hoff
  have hqs : q ≤ s := by
    by_contra hsq
    have hstop := (hl.stop_spec hs).2.2.2.2 q hleader (by omega)
    have hlt := hascend.lt hy hq (by omega)
    rw [hoff] at hlt
    exact Nat.not_lt_of_le h.1 hlt
  have hzx : z.offset ≤ x.offset := hascend.le hq hx hqs
  rw [hoff] at hzx
  exact ⟨hzx, Nat.lt_of_le_of_lt hxy h.2⟩

/-- A block with a protected first instruction is joined to the blocks where
the handler is entered. -/
theorem Sound.succ_handler (hl : l.Sound) (hc : c.graph = l.graph config)
    (hedges : config.exceptionalEdges = true) (hs : l.blockAtIndex? s = some m)
    (hx : l.code[s]? = some x) (hr : r ∈ l.regions) (hprotects : r.protects x.offset = true)
    (he : e ∈ r.entries) (hn : l.blockAt? e = some n) : n ∈ c.view.succ m := by
  have hraised : (n, .handler r.exceptionType) ∈ l.blockTransfers config s := by
    have hhandler : (n, .handler r.exceptionType) ∈ l.handlerTransfers x.offset := by
      simp only [handlerTransfers, List.mem_flatMap, List.mem_filter, List.mem_filterMap]
      exact ⟨r, ⟨hr, hprotects⟩, e, he, by rw [hn, Option.map_some]⟩
    simp only [blockTransfers, hedges, if_true,
      hl.head?_blockCode (mem_leaders_of_blockAtIndex? hs), hx, Option.map_some, Option.getD_some]
    exact List.mem_append_right _ hhandler
  refine Digraph.mem_successors_iff.2 ?_
  rw [hc, hl.edge?_block hs n]
  -- The handler edge may have been listed behind another edge to the same block.
  cases hfound : (l.blockTransfers config s).find? fun t => t.1 == n with
  | none => exact absurd (List.find?_eq_none.1 hfound _ hraised) (by simp)
  | some t => exact ⟨t.2, rfl⟩

end Layout

/-- The nodes of an accepted body hold only its instructions, and no two of
these have the same offset. -/
theorem code_of_build (h : build method code regions config = .ok c) :
    (∀ n, ∀ x ∈ c.codeOf n, x ∈ code) ∧
      ∀ x ∈ code, ∀ y ∈ code, x.offset = y.offset → x = y := by
  obtain ⟨hfault, hc⟩ := build_eq_ok_iff.1 h
  obtain ⟨hascend, -, -⟩ := (fault?_eq_none_iff method).1 hfault
  refine ⟨fun n x hx => (Layout.sound_of code regions).mem_code (by rw [hc]) hx, ?_⟩
  intro x hx y hy hoffset
  obtain ⟨i, hi⟩ := List.getElem?_of_mem hx
  obtain ⟨j, hj⟩ := List.getElem?_of_mem hy
  have hij := hascend.inj hi hj hoffset
  rw [hij, hj] at hi
  exact (Option.some.inj hi).symm

/-- **Handlers of protected blocks.**  With exceptional edges, exactly one
block begins at each entry of the handler of a region that protects an
instruction, and the block of the instruction has an edge to it. -/
theorem handler_of_protected (h : build method code regions config = .ok c)
    (hedges : config.exceptionalEdges = true) (hr : r ∈ regions) (hy : y ∈ c.codeOf m)
    (hprotects : r.protects y.offset = true) (he : e ∈ r.entries) :
    ∃ n, (∀ k, c.start? k = some e ↔ k = n) ∧ n ∈ c.view.succ m := by
  obtain ⟨hfault, hc⟩ := build_eq_ok_iff.1 h
  have hgraph : c.graph = (Layout.of code regions).graph config := by rw [hc]
  obtain ⟨hascend, -, hregions⟩ := (fault?_eq_none_iff method).1 hfault
  have hl := Layout.sound_of code regions
  obtain ⟨s, hs, hblock⟩ := hl.block_of_code hgraph hy
  have hleader := Layout.mem_leaders_of_blockAtIndex? hs
  rw [hblock] at hy
  obtain ⟨p, hsp, hp, hy⟩ := hl.mem_blockCode hleader hy
  have hmem : y ∈ code := List.mem_of_getElem? hy
  have hadmitted := hregions r hr
  have hbegin := hadmitted.tryStart_of_protects hascend hmem hprotects
  obtain ⟨x, hx⟩ := hl.exists_instruction hleader
  have hfirst := hl.protects_start hascend hr hbegin hleader hsp hp hx hy hprotects
  have hentry := hadmitted.entries hedges ⟨y, hmem, hprotects⟩ e he
  obtain ⟨n, hn⟩ := Option.isSome_iff_exists.1
    ((blockAt?_isSome_iff (mem_boundaries_of_mem_entries he) hr).2 hentry)
  refine ⟨n, fun k => ?_, hl.succ_handler hgraph hedges hs hx hr hfirst he hn⟩
  rw [hl.start?_iff hascend hgraph, hn, Option.some.injEq]
  exact eq_comm

end Cfg

end MethodFlow
