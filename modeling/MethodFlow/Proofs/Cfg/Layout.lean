import Mathlib.Tactic.ByContra
import MethodFlow.Cfg.Build
import MethodFlow.Proofs.Graph.Digraph

/-!
# Blocks and the edges between them

A layout cuts code at its leaders.  This module says which positions are
leaders, where a block stops, and what the finished graph knows of a block:
its instructions and, for every pair of nodes, the edge that was listed first
for it.

Nothing here needs the code to be well formed, except that an offset names
one position only, for which the offsets have to ascend.

## Main results

* `Cfg.mem_leaders`: the positions where blocks begin.
* `Cfg.Layout.Sound.stop_spec`: a block runs up to the next leader.
* `Cfg.Layout.data?_block`, `Cfg.Layout.Sound.edge?_block`: the instructions
  of a block's node and the edges that leave it.
* `Cfg.Layout.wired`: the shape that every graph has.
-/

namespace MethodFlow

namespace Cfg

variable {code : List Instruction} {regions : List Region} {config : Config}
  {x y : Instruction} {o i j n s t : Nat}

/-! ## Offsets and positions -/

/-- The offsets of the instructions ascend. -/
def OffsetsAscend (code : List Instruction) : Prop :=
  code.Pairwise fun a b => a.offset < b.offset

/-- There is an instruction at the offset. -/
def IsOffset (code : List Instruction) (o : Offset) : Prop := ∃ i ∈ code, i.offset = o

theorem hasOffset_iff : hasOffset code o = true ↔ IsOffset code o := by
  simp [hasOffset, IsOffset]

theorem OffsetsAscend.lt (h : OffsetsAscend code) (hi : code[i]? = some x)
    (hj : code[j]? = some y) (hij : i < j) : x.offset < y.offset := by
  obtain ⟨hilt, rfl⟩ := List.getElem?_eq_some_iff.1 hi
  obtain ⟨hjlt, rfl⟩ := List.getElem?_eq_some_iff.1 hj
  exact List.pairwise_iff_getElem.1 h i j hilt hjlt hij

theorem OffsetsAscend.le (h : OffsetsAscend code) (hi : code[i]? = some x)
    (hj : code[j]? = some y) (hij : i ≤ j) : x.offset ≤ y.offset := by
  rcases Nat.eq_or_lt_of_le hij with rfl | hlt
  · exact Nat.le_of_eq (congrArg Instruction.offset (Option.some.inj (hi.symm.trans hj)))
  · exact Nat.le_of_lt (h.lt hi hj hlt)

theorem OffsetsAscend.inj (h : OffsetsAscend code) (hi : code[i]? = some x)
    (hj : code[j]? = some y) (hxy : x.offset = y.offset) : i = j := by
  rcases Nat.lt_trichotomy i j with hlt | heq | hgt
  · exact absurd hxy (Nat.ne_of_lt (h.lt hi hj hlt))
  · exact heq
  · exact absurd hxy (Nat.ne_of_gt (h.lt hj hi hgt))

theorem indexOf?_eq_some (h : indexOf? code o = some i) :
    ∃ x, code[i]? = some x ∧ x.offset = o := by
  obtain ⟨hlt, heq, -⟩ := List.findIdx?_eq_some_iff_getElem.1 h
  exact ⟨_, List.getElem?_eq_getElem hlt, by simpa using heq⟩

theorem indexOf?_eq_some_iff (h : OffsetsAscend code) :
    indexOf? code o = some i ↔ ∃ x, code[i]? = some x ∧ x.offset = o := by
  refine ⟨indexOf?_eq_some, ?_⟩
  rintro ⟨x, hx, hoff⟩
  have hmem : ∃ x ∈ code, (x.offset == o) = true :=
    ⟨x, List.mem_of_getElem? hx, by simp [hoff]⟩
  have hsome : indexOf? code o = some (code.findIdx fun x => x.offset == o) :=
    List.findIdx?_eq_some_of_exists hmem
  obtain ⟨y, hy, hyoff⟩ := indexOf?_eq_some hsome
  rw [hsome, h.inj hy hx (by rw [hyoff, hoff])]

theorem indexOf?_isSome_iff : (indexOf? code o).isSome = true ↔ IsOffset code o := by
  rw [indexOf?, List.findIdx?_isSome, ← hasOffset_iff, hasOffset]

/-! ## Where blocks begin -/

/-- A block begins where something makes it begin by itself, and at every
branch target. -/
theorem mem_leaders : i ∈ leaders code regions ↔
    (∃ x, code[i]? = some x ∧ startsBlock code regions i x = true) ∨
      ∃ x ∈ code, ∃ t ∈ x.op.targets, indexOf? code t = some i := by
  simp only [leaders, List.mem_eraseDups, List.mem_flatMap, List.mem_append,
    List.mem_filterMap, Prod.exists, List.mk_mem_zipIdx_iff_getElem?]
  constructor
  · rintro ⟨x, index, hx, hstart | ⟨t, ht, hi⟩⟩
    · split at hstart
      · next hself =>
        rw [List.mem_singleton.1 hstart]
        exact .inl ⟨x, hx, hself⟩
      · exact absurd hstart (by simp)
    · exact .inr ⟨x, List.mem_of_getElem? hx, t, ht, hi⟩
  · rintro (⟨x, hx, hself⟩ | ⟨x, hx, t, ht, hi⟩)
    · exact ⟨x, i, hx, .inl (by simp [hself])⟩
    · obtain ⟨index, hindex⟩ := List.getElem?_of_mem hx
      exact ⟨x, index, hindex, .inr ⟨t, ht, hi⟩⟩

theorem lt_length_of_mem_leaders (h : i ∈ leaders code regions) : i < code.length := by
  rcases mem_leaders.1 h with ⟨x, hx, -⟩ | ⟨_, _, _, _, hi⟩
  · exact (List.getElem?_eq_some_iff.1 hx).1
  · obtain ⟨x, hx, -⟩ := indexOf?_eq_some hi
    exact (List.getElem?_eq_some_iff.1 hx).1

theorem zero_mem_leaders (h : 0 < code.length) : 0 ∈ leaders code regions :=
  mem_leaders.2 (.inl ⟨_, List.getElem?_eq_getElem h, by simp [startsBlock]⟩)

theorem mem_leaders_of_terminator (hx : code[i]? = some x) (hend : x.op.isTerminator = true)
    (hnext : i + 1 < code.length) : i + 1 ∈ leaders code regions := by
  refine mem_leaders.2 (.inl ⟨_, List.getElem?_eq_getElem hnext, ?_⟩)
  simp [startsBlock, hx, hend]

theorem mem_leaders_of_boundary {r : Region} (hr : r ∈ regions) (ho : o ∈ r.boundaries)
    (hx : code[i]? = some x) (hoff : x.offset = o) : i ∈ leaders code regions := by
  refine mem_leaders.2 (.inl ⟨x, hx, ?_⟩)
  have hany : (regions.any fun r => r.boundaries.contains x.offset) = true :=
    List.any_eq_true.2 ⟨r, hr, by simpa [hoff] using ho⟩
  simp only [startsBlock, hany, Bool.or_true]

theorem mem_leaders_of_target (hx : x ∈ code) (ht : t ∈ x.op.targets)
    (hi : indexOf? code t = some i) : i ∈ leaders code regions :=
  mem_leaders.2 (.inr ⟨x, hx, t, ht, hi⟩)

namespace Layout

variable {l : Layout}

/-- The leaders and the starts are those of the code. -/
structure Sound (l : Layout) : Prop where
  leaders_eq : l.leaders = Cfg.leaders l.code l.regions
  starts_eq : l.starts = (List.range l.code.length).filter l.leaders.contains

theorem sound_of (code : List Instruction) (regions : List Region) :
    (Layout.of code regions).Sound :=
  ⟨rfl, rfl⟩

theorem Sound.lt_length (hl : l.Sound) (h : s ∈ l.leaders) : s < l.code.length := by
  rw [hl.leaders_eq] at h
  exact lt_length_of_mem_leaders h

theorem Sound.exists_instruction (hl : l.Sound) (h : s ∈ l.leaders) :
    ∃ x, l.code[s]? = some x :=
  ⟨_, List.getElem?_eq_getElem (hl.lt_length h)⟩

theorem Sound.mem_starts (hl : l.Sound) : s ∈ l.starts ↔ s ∈ l.leaders := by
  rw [hl.starts_eq, List.mem_filter, List.mem_range, List.contains_iff_mem]
  exact ⟨And.right, fun h => ⟨hl.lt_length h, h⟩⟩

/-! ## Where blocks stop -/

/-- The position behind the block that begins at `start`. -/
def stop (l : Layout) (start : Nat) : Nat := (l.nextStart? start).getD l.code.length

theorem Sound.nextStart?_eq_some (hl : l.Sound) :
    l.nextStart? s = some n ↔
      n ∈ l.leaders ∧ s < n ∧ ∀ m ∈ l.leaders, s < m → n ≤ m := by
  rw [nextStart?, hl.starts_eq, List.find?_filter, List.find?_range_eq_some]
  simp only [List.contains_iff_mem, decide_eq_true_eq, List.mem_range, Bool.not_eq_true',
    decide_eq_false_iff_not]
  constructor
  · rintro ⟨⟨hn, hsn⟩, -, hleast⟩
    refine ⟨hn, hsn, fun m hm hsm => ?_⟩
    by_contra hmn
    exact hleast m (by omega) ⟨hm, hsm⟩
  · rintro ⟨hn, hsn, hleast⟩
    refine ⟨⟨hn, hsn⟩, hl.lt_length hn, ?_⟩
    rintro m hmn ⟨hm, hsm⟩
    have := hleast m hm hsm
    omega

theorem Sound.nextStart?_eq_none (hl : l.Sound) :
    l.nextStart? s = none ↔ ∀ m ∈ l.leaders, m ≤ s := by
  rw [nextStart?, List.find?_eq_none]
  constructor
  · intro h m hm
    have := h m (hl.mem_starts.2 hm)
    simpa using this
  · intro h m hm
    have := h m (hl.mem_starts.1 hm)
    simpa using this

/-- A block stops behind its beginning, at a leader or at the end of the
code, and there is no leader in between. -/
theorem Sound.stop_spec (hl : l.Sound) (hs : s ∈ l.leaders) :
    s < l.stop s ∧ l.stop s ≤ l.code.length ∧
      (l.stop s < l.code.length → l.nextStart? s = some (l.stop s)) ∧
      (l.stop s = l.code.length → l.nextStart? s = none) ∧
      ∀ m ∈ l.leaders, s < m → l.stop s ≤ m := by
  have hslt := hl.lt_length hs
  unfold stop
  cases hnext : l.nextStart? s with
  | none =>
      have hlast := hl.nextStart?_eq_none.1 hnext
      refine ⟨hslt, Nat.le_refl _, fun h => absurd h (Nat.lt_irrefl _), fun _ => rfl, ?_⟩
      intro m hm hsm
      have := hlast m hm
      omega
  | some e =>
      obtain ⟨he, hse, hleast⟩ := hl.nextStart?_eq_some.1 hnext
      have helt := hl.lt_length he
      simp only [Option.getD_some]
      exact ⟨hse, Nat.le_of_lt helt, fun _ => trivial, fun h => absurd h (Nat.ne_of_lt helt), hleast⟩

/-! ## The nodes of blocks -/

theorem blockAtIndex?_eq_some (h : l.blockAtIndex? s = some n) :
    ∃ k, n = k + 2 ∧ l.leaders[k]? = some s := by
  obtain ⟨k, hk, rfl⟩ := Option.map_eq_some_iff.1 h
  obtain ⟨hlt, heq, -⟩ := List.findIdx?_eq_some_iff_getElem.1 hk
  exact ⟨k, rfl, by rw [List.getElem?_eq_getElem hlt, eq_of_beq heq]⟩

theorem blockAtIndex?_isSome (h : s ∈ l.leaders) : ∃ n, l.blockAtIndex? s = some n := by
  obtain ⟨k, hk⟩ := Option.isSome_iff_exists.1 (List.isSome_idxOf?.2 h)
  exact ⟨k + 2, by rw [blockAtIndex?, hk]; rfl⟩

theorem mem_leaders_of_blockAtIndex? (h : l.blockAtIndex? s = some n) : s ∈ l.leaders := by
  obtain ⟨k, -, hk⟩ := blockAtIndex?_eq_some h
  exact List.mem_of_getElem? hk

theorem blockAtIndex?_inj (hs : l.blockAtIndex? s = some n) (ht : l.blockAtIndex? t = some n) :
    s = t := by
  obtain ⟨k, rfl, hk⟩ := blockAtIndex?_eq_some hs
  obtain ⟨k', hkk, hk'⟩ := blockAtIndex?_eq_some ht
  have : k = k' := by omega
  rw [this, hk'] at hk
  exact (Option.some.inj hk).symm

theorem two_le_of_blockAtIndex? (h : l.blockAtIndex? s = some n) : 2 ≤ n := by
  obtain ⟨k, rfl, -⟩ := blockAtIndex?_eq_some h
  omega

theorem ne_entry_of_blockAtIndex? (h : l.blockAtIndex? s = some n) : n ≠ entry := by
  intro hn
  have htwo := two_le_of_blockAtIndex? h
  rw [hn] at htwo
  exact absurd htwo (by decide)

theorem ne_exit_of_blockAtIndex? (h : l.blockAtIndex? s = some n) : n ≠ exit := by
  intro hn
  have htwo := two_le_of_blockAtIndex? h
  rw [hn] at htwo
  exact absurd htwo (by decide)

theorem blockAt?_eq_some (h : l.blockAt? o = some n) :
    ∃ i, indexOf? l.code o = some i ∧ l.blockAtIndex? i = some n :=
  Option.bind_eq_some_iff.1 h

theorem blockAt?_of_blockAtIndex? (hascend : OffsetsAscend l.code) (hx : l.code[s]? = some x)
    (hn : l.blockAtIndex? s = some n) : l.blockAt? x.offset = some n :=
  Option.bind_eq_some_iff.2 ⟨s, (indexOf?_eq_some_iff hascend).2 ⟨x, hx, rfl⟩, hn⟩

/-! ## The edges that are listed -/

/-- The node is the exit or the node of a block. -/
def Lands (l : Layout) (n : NodeId) : Prop := n = exit ∨ ∃ s, l.blockAtIndex? s = some n

private theorem lands_blockAt? (h : l.blockAt? o = some n) : l.Lands n := by
  obtain ⟨i, -, hi⟩ := blockAt?_eq_some h
  exact .inr ⟨i, hi⟩

private theorem lands_continuations (h : n ∈ l.continuations o) : l.Lands n := by
  simp only [continuations, List.mem_eraseDups, List.mem_flatMap, List.mem_filterMap] at h
  obtain ⟨r, -, x, -, hx⟩ := h
  split at hx
  · split at hx
    · exact lands_blockAt? hx
    · cases hx
  · cases hx

private theorem lands_transfers {e : NodeId × EdgeKind} (h : e ∈ l.transfers config x) :
    l.Lands e.1 := by
  unfold transfers at h
  split at h
  · obtain ⟨n, hn, rfl⟩ := List.mem_map.1 h
    exact lands_blockAt? (Option.mem_toList.1 hn)
  · obtain ⟨⟨t, case⟩, -, hmap⟩ := List.mem_filterMap.1 h
    obtain ⟨n, hn, rfl⟩ := Option.map_eq_some_iff.1 hmap
    exact lands_blockAt? hn
  · rw [List.mem_singleton.1 h]
    exact .inl rfl
  · rw [List.mem_singleton.1 h]
    exact .inl rfl
  · rw [List.mem_singleton.1 h]
    exact .inl rfl
  · dsimp only at h
    generalize htargets : (if config.finallyEdges then l.continuations x.offset else []) =
      targets at h
    split at h
    · rw [List.mem_singleton.1 h]
      exact .inl rfl
    · obtain ⟨n, hn, rfl⟩ := List.mem_map.1 h
      rw [← htargets] at hn
      split at hn
      · exact lands_continuations hn
      · exact absurd hn (by simp)
  · exact absurd h (by simp)

private theorem lands_handlerTransfers {e : NodeId × EdgeKind}
    (h : e ∈ l.handlerTransfers o) : l.Lands e.1 := by
  simp only [handlerTransfers, List.mem_flatMap, List.mem_filterMap] at h
  obtain ⟨r, -, entry, -, hmap⟩ := h
  obtain ⟨n, hn, rfl⟩ := Option.map_eq_some_iff.1 hmap
  exact lands_blockAt? hn

/-- Control passes from a block to a block or to the exit. -/
theorem lands_blockTransfers {e : NodeId × EdgeKind} (h : e ∈ l.blockTransfers config s) :
    l.Lands e.1 := by
  simp only [blockTransfers, List.mem_append] at h
  rcases h with (hown | honward) | hhandler
  · cases hlast : (l.blockCode s).getLast? with
    | none => simp [hlast] at hown
    | some last =>
        rw [hlast] at hown
        exact lands_transfers hown
  · split at honward
    · rw [List.mem_singleton.1 honward]
      cases hnext : (l.nextStart? s).bind l.blockAtIndex? with
      | none => exact .inl rfl
      | some n =>
          obtain ⟨m, -, hm⟩ := Option.bind_eq_some_iff.1 hnext
          exact .inr ⟨m, hm⟩
    · exact absurd honward (by simp)
  · split at hhandler
    · cases hfirst : (l.blockCode s).head? with
      | none => simp [hfirst] at hhandler
      | some first =>
          rw [hfirst] at hhandler
          exact lands_handlerTransfers hhandler
    · exact absurd hhandler (by simp)

/-- Every listed edge leaves the entry or a block and lands in a block or in
the exit. -/
theorem mem_edges_ends {e : NodeId × NodeId × EdgeKind} (h : e ∈ l.edges config) :
    (e.1 = entry ∨ ∃ s, l.blockAtIndex? s = some e.1) ∧ l.Lands e.2.1 := by
  unfold edges at h
  split at h
  · simp only [List.mem_append, List.mem_map, List.mem_flatMap, Option.mem_toList] at h
    rcases h with (⟨n, hn, rfl⟩ | ⟨s, -, n, hn, t, ht, rfl⟩) | ⟨n, hn, rfl⟩
    · exact ⟨.inl rfl, .inr ⟨_, hn⟩⟩
    · exact ⟨.inr ⟨s, hn⟩, lands_blockTransfers ht⟩
    · exact ⟨.inr ⟨_, hn⟩, .inl rfl⟩
  · rw [List.mem_singleton.1 h]
    exact ⟨.inl rfl, .inl rfl⟩

private theorem length_nodes (l : Layout) : l.nodes.length = l.leaders.length + 2 := by
  simp [nodes]

private theorem lt_of_blockAtIndex? (h : l.blockAtIndex? s = some n) :
    n < l.nodes.length := by
  obtain ⟨k, rfl, hk⟩ := blockAtIndex?_eq_some h
  obtain ⟨hlt, -⟩ := List.getElem?_eq_some_iff.1 hk
  rw [length_nodes]
  omega

private theorem size_bare (l : Layout) :
    (l.nodes.foldl Digraph.addNode (.empty : Digraph CfgNode EdgeKind)).size =
      l.nodes.length := by
  rw [Digraph.size_foldl_addNode]
  exact Nat.zero_add _

theorem edgesWithin (l : Layout) (config : Config) :
    Digraph.EdgesWithin
      (l.nodes.foldl Digraph.addNode (.empty : Digraph CfgNode EdgeKind)).size
      (l.edges config) := by
  intro e he
  rw [size_bare]
  have hlen := length_nodes l
  obtain ⟨hsource, htarget⟩ := mem_edges_ends he
  constructor
  · rcases hsource with h | ⟨s, hs⟩
    · rw [h, hlen]
      exact Nat.succ_pos _
    · exact lt_of_blockAtIndex? hs
  · rcases htarget with h | ⟨s, hs⟩
    · rw [h, hlen]
      exact Nat.succ_lt_succ (Nat.succ_pos _)
    · exact lt_of_blockAtIndex? hs

/-- The graph is made by adding nodes and edges. -/
theorem built_graph (l : Layout) (config : Config) : (l.graph config).Built :=
  Digraph.built_foldl_connect (Digraph.built_foldl_addNode .empty _) (l.edgesWithin config)

/-! ## What the finished graph knows -/

theorem size_graph (l : Layout) (config : Config) :
    (l.graph config).size = l.leaders.length + 2 := by
  rw [graph, Digraph.size_foldl_connect, size_bare, length_nodes]

theorem data?_graph (l : Layout) (config : Config) (n : Nat) :
    (l.graph config).data? n = l.nodes[n]? := by
  rw [graph, Digraph.data?_foldl_connect, Digraph.data?_foldl_addNode]
  have hempty : (Digraph.empty : Digraph CfgNode EdgeKind).size = 0 := rfl
  rw [hempty, if_neg (Nat.not_lt_zero n), Nat.sub_zero]

theorem edge?_graph (l : Layout) (config : Config) (m n : Nat) :
    (l.graph config).edge? m n =
      ((l.edges config).find? fun e => e.1 == m && e.2.1 == n).map fun e => e.2.2 := by
  rw [graph, Digraph.edge?_foldl_connect (l.edgesWithin config)]
  have hbare : (l.nodes.foldl Digraph.addNode (.empty : Digraph CfgNode EdgeKind)).edge? m n =
      none := by
    rw [Digraph.edge?, Digraph.outgoing_foldl_addNode]
    rfl
  rw [hbare, Option.none_or]

/-- The node of a block holds the instructions of the block. -/
theorem data?_block (h : l.blockAtIndex? s = some n) :
    (l.graph config).data? n = some (.block (l.blockCode s)) := by
  obtain ⟨k, rfl, hk⟩ := blockAtIndex?_eq_some h
  rw [data?_graph]
  simp [nodes, hk]

/-- Among the edges of a list of blocks, those that leave a given block are
its own transfers. -/
private theorem find?_blockEdges (hs : l.blockAtIndex? s = some n) (starts : List Nat) (t : Nat) :
    (starts.flatMap fun start => (l.blockAtIndex? start).toList.flatMap fun m =>
        (l.blockTransfers config start).map fun e => (m, e.1, e.2)).find?
          (fun e => e.1 == n && e.2.1 == t) =
      if s ∈ starts then
        ((l.blockTransfers config s).find? fun e => e.1 == t).map fun e => (n, e.1, e.2)
      else none := by
  induction starts with
  | nil => rfl
  | cons start rest ih =>
      rw [List.flatMap_cons, List.find?_append, ih]
      by_cases hstart : start = s
      · subst hstart
        simp only [hs, Option.toList_some, List.flatMap_cons, List.flatMap_nil, List.append_nil,
          List.find?_map, Function.comp_def, beq_self_eq_true, Bool.true_and, List.mem_cons,
          true_or, if_true]
        cases (l.blockTransfers config start).find? fun e => e.1 == t <;> simp
      · have hnone : ((l.blockAtIndex? start).toList.flatMap fun m =>
            (l.blockTransfers config start).map fun e => (m, e.1, e.2)).find?
              (fun e => e.1 == n && e.2.1 == t) = none := by
          rw [List.find?_eq_none]
          intro e he
          simp only [List.mem_flatMap, Option.mem_toList, List.mem_map] at he
          obtain ⟨m, hm, e', -, rfl⟩ := he
          have hmn : m ≠ n := fun h => hstart (blockAtIndex?_inj (h ▸ hm) hs)
          simp [hmn]
        have hne : ¬ s = start := fun h => hstart h.symm
        rw [hnone, Option.none_or]
        simp [hne]

/-- The edge behind the last block leaves a given block only if that is the
last one. -/
private theorem find?_lastEdge (hs : l.blockAtIndex? s = some n) (last t : Nat) :
    (((l.blockAtIndex? last).toList.map fun m => (m, exit, EdgeKind.fallThrough)).find?
      (fun e => e.1 == n && e.2.1 == t)).map (fun e => e.2.2) =
        if last = s ∧ t = exit then some .fallThrough else none := by
  cases hb : l.blockAtIndex? last with
  | none =>
      have hne : last ≠ s := fun h => by rw [h, hs] at hb; cases hb
      simp [hne]
  | some m =>
      by_cases hlast : last = s
      · subst hlast
        rw [hs] at hb
        cases hb
        by_cases ht : t = exit
        · subst ht
          simp
        · have ht' : ¬ exit = t := fun h => ht h.symm
          simp [ht, ht']
      · have hne : m ≠ n := fun h => hlast (blockAtIndex?_inj hb (h ▸ hs))
        simp [hne, hlast]

/-- The edges of code that is not empty: one from the entry to the first block,
those of the blocks, and one from the last block to the exit. -/
private theorem Sound.edges_eq (hl : l.Sound) (hpos : 0 < l.code.length) :
    ∃ last, l.starts.getLast? = some last ∧
      l.edges config =
        (l.blockAtIndex? 0).toList.map (fun n => (entry, n, EdgeKind.entry))
          ++ l.starts.flatMap (fun start =>
            (l.blockAtIndex? start).toList.flatMap fun n =>
              (l.blockTransfers config start).map fun t => (n, t.1, t.2))
          ++ (l.blockAtIndex? last).toList.map (fun n => (n, exit, EdgeKind.fallThrough)) := by
  have hzero : 0 ∈ l.leaders := by
    rw [hl.leaders_eq]
    exact zero_mem_leaders hpos
  have hhead : l.starts.head? = some 0 := by
    rw [hl.starts_eq, show l.code.length = l.code.length - 1 + 1 by omega,
      List.range_succ_eq_map, List.filter_cons_of_pos (by simpa using hzero)]
    rfl
  cases hlast : l.starts.getLast? with
  | none =>
      rw [List.getLast?_eq_none_iff.1 hlast] at hhead
      cases hhead
  | some last =>
      refine ⟨last, rfl, ?_⟩
      rw [edges, hhead, hlast]

/-- **The edges of a block**: a block is joined to another node by the first
of its transfers there; only the last block has one more edge, to the exit. -/
theorem Sound.edge?_block (hl : l.Sound) (hs : l.blockAtIndex? s = some n) (t : Nat) :
    (l.graph config).edge? n t =
      (((l.blockTransfers config s).find? fun e => e.1 == t).map Prod.snd).or
        (if l.starts.getLast? = some s ∧ t = exit then some .fallThrough else none) := by
  have hleader := mem_leaders_of_blockAtIndex? hs
  have hmem : s ∈ l.starts := hl.mem_starts.2 hleader
  obtain ⟨last, hlast, hedges⟩ := hl.edges_eq (Nat.zero_lt_of_lt (hl.lt_length hleader))
  have hentry : ((l.blockAtIndex? 0).toList.map fun m => (entry, m, EdgeKind.entry)).find?
      (fun e => e.1 == n && e.2.1 == t) = none := by
    rw [List.find?_eq_none]
    intro e he
    obtain ⟨m, -, rfl⟩ := List.mem_map.1 he
    have hne : entry ≠ n := fun h => ne_entry_of_blockAtIndex? hs h.symm
    simp [hne]
  rw [edge?_graph, hedges, hlast]
  simp only [List.find?_append, hentry, find?_blockEdges hs, if_pos hmem, Option.none_or,
    Option.map_or, Option.map_map, find?_lastEdge hs, Option.some.injEq]
  rfl

/-- The entry is joined to the first block. -/
theorem Sound.edge?_entry (hl : l.Sound) (hpos : 0 < l.code.length) (n : Nat) :
    (l.graph config).edge? entry n =
      if l.blockAtIndex? 0 = some n then some .entry else none := by
  obtain ⟨last, -, hedges⟩ := hl.edges_eq hpos
  have hblocks : (l.starts.flatMap fun start => (l.blockAtIndex? start).toList.flatMap fun m =>
      (l.blockTransfers config start).map fun e => (m, e.1, e.2)).find?
        (fun e => e.1 == entry && e.2.1 == n) = none := by
    rw [List.find?_eq_none]
    intro e he
    simp only [List.mem_flatMap, Option.mem_toList, List.mem_map] at he
    obtain ⟨start, -, m, hm, e', -, rfl⟩ := he
    simp [ne_entry_of_blockAtIndex? hm]
  have hend : ((l.blockAtIndex? last).toList.map fun m => (m, exit, EdgeKind.fallThrough)).find?
      (fun e => e.1 == entry && e.2.1 == n) = none := by
    rw [List.find?_eq_none]
    intro e he
    obtain ⟨m, hm, rfl⟩ := List.mem_map.1 he
    simp [ne_entry_of_blockAtIndex? (Option.mem_toList.1 hm)]
  rw [edge?_graph, hedges]
  simp only [List.find?_append, hblocks, hend, Option.or_none]
  cases hfirst : l.blockAtIndex? 0 with
  | none => rfl
  | some first => by_cases hn : first = n <;> simp [hn]

/-- An edge leaves the entry or a block and lands in a block or in the
exit. -/
theorem ends_of_edge? {m : Nat} {k : EdgeKind} (h : (l.graph config).edge? m n = some k) :
    (m = entry ∨ ∃ s, l.blockAtIndex? s = some m) ∧ l.Lands n := by
  rw [edge?_graph] at h
  obtain ⟨e, he, -⟩ := Option.map_eq_some_iff.1 h
  have hends := mem_edges_ends (List.mem_of_find?_eq_some he)
  have hpair := List.find?_some he
  simp only [Bool.and_eq_true, beq_iff_eq] at hpair
  rw [hpair.1, hpair.2] at hends
  exact hends

end Layout

/-- What the analyses rely on: edges are known at both ends, nothing leads to
the entry or away from the exit, and neither holds instructions. -/
structure Wired (c : Cfg) : Prop where
  built : c.graph.Built
  exit_lt : exit < c.size
  not_to_entry : ∀ {m : NodeId}, entry ∉ c.view.succ m
  not_from_exit : ∀ {m : NodeId}, m ∉ c.view.succ exit
  code_entry : c.codeOf entry = []
  code_exit : c.codeOf exit = []

theorem Wired.linked {c : Cfg} (h : c.Wired) : c.view.Linked := h.built.linked

theorem Wired.entry_lt {c : Cfg} (h : c.Wired) : entry < c.view.size :=
  Nat.lt_trans (by decide) h.exit_lt

/-- Nothing leads to the entry, so it is the first root of the forward
order. -/
theorem Wired.entry_first {c : Cfg} (h : c.Wired) :
    [entry] <+: c.view.sources ++ c.view.nodes := by
  have hpred : c.view.pred entry = [] := by
    refine List.eq_nil_iff_forall_not_mem.2 fun p hp => ?_
    exact h.not_to_entry (h.linked.mem_pred.1 hp)
  obtain ⟨k, hk⟩ : ∃ k, c.view.size = k + 1 :=
    Nat.exists_eq_succ_of_ne_zero (Nat.ne_of_gt (Nat.zero_lt_of_lt h.entry_lt))
  have hsources : ∃ rest, c.view.sources = entry :: rest := by
    unfold View.sources View.nodes
    rw [hk, List.range_succ_eq_map]
    exact ⟨_, List.filter_cons_of_pos (by rw [show (0 : NodeId) = entry from rfl, hpred]; rfl)⟩
  obtain ⟨rest, hrest⟩ := hsources
  rw [hrest]
  exact ⟨rest ++ c.view.nodes, rfl⟩

theorem Layout.wired {c : Cfg} {l : Layout} (hc : c.graph = l.graph config) : c.Wired where
  built := hc ▸ l.built_graph config
  exit_lt := by
    rw [size, hc, size_graph]
    exact Nat.succ_lt_succ (Nat.succ_pos _)
  not_to_entry := by
    intro m hedge
    obtain ⟨k, hk⟩ := Digraph.mem_successors_iff.1 hedge
    rw [hc] at hk
    rcases (ends_of_edge? hk).2 with h | ⟨s, hs⟩
    · exact absurd h (by decide)
    · exact ne_entry_of_blockAtIndex? hs rfl
  not_from_exit := by
    intro m hedge
    obtain ⟨k, hk⟩ := Digraph.mem_successors_iff.1 hedge
    rw [hc] at hk
    rcases (ends_of_edge? hk).1 with h | ⟨s, hs⟩
    · exact absurd h (by decide)
    · exact ne_exit_of_blockAtIndex? hs rfl
  code_entry := by
    rw [codeOf, node?, hc, data?_graph]
    rfl
  code_exit := by
    rw [codeOf, node?, hc, data?_graph]
    rfl

end Cfg

end MethodFlow
