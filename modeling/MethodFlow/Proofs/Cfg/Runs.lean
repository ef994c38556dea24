import MethodFlow.Proofs.Cfg.Acceptance

/-!
# Runs of instructions and paths of blocks

A run of single instructions starts at the first one and goes on, from each,
to the next one if control falls through and to the targets of its branch.  A
path of blocks starts with the edge out of the entry and follows the edges
between blocks, except those that only an exception or the end of a finally
handler makes.  The two describe the same executions: the runs are the
beginnings of what the blocks along the paths hold.

Both directions go through positions.  A block covers the positions from its
leader up to the next one.  Inside a block there is just one way on, because
the next position is no leader (`follows_inside`); from its last position the
ways on are the edges (`Layout.Sound.direct_edge_iff`).  So a run is always
part of a path, some way into its last block, and a path is a run up to the
end of its last block.

## Main results

* `Cfg.Layout.Sound.direct_edge_iff`: the edges of a block are the ways on
  from its last instruction.
* `Cfg.run_iff_blockPath`: runs are the beginnings of paths.
-/

namespace MethodFlow

/-- An edge that neither an exception nor the end of a finally handler
makes. -/
def EdgeKind.IsDirect (k : EdgeKind) : Prop := (∀ type, k ≠ .handler type) ∧ k ≠ .endFinally

namespace Cfg

variable {code : List Instruction} {regions : List Region} {config : Config}
  {method : Option MethodRef} {c : Cfg} {x y : Instruction} {i j m n s t : Nat}
  {run : List Nat} {path : List NodeId}

/-! ## Runs and paths -/

/-- Control can pass from the instruction at position `i` to the one at
position `j`. -/
def Follows (code : List Instruction) (i j : Nat) : Prop :=
  ∃ x y, code[i]? = some x ∧ code[j]? = some y ∧
    ((j = i + 1 ∧ x.op.fallsThrough = true) ∨ y.offset ∈ x.op.targets)

/-- `Run code run i`: the positions of `run` lead from the first instruction
to the one at `i`. -/
inductive Run (code : List Instruction) : List Nat → Nat → Prop where
  | start (h : 0 < code.length) : Run code [0] 0
  | next {run : List Nat} {i j : Nat} (hrun : Run code run i) (h : Follows code i j) :
      Run code (run ++ [j]) j

/-- The node is a block. -/
def IsBlock (c : Cfg) (n : NodeId) : Prop := ∃ code, c.node? n = some (.block code)

/-- `BlockPath c path n`: the blocks of `path` lead from the edge out of the
entry to the block `n` along direct edges. -/
inductive BlockPath (c : Cfg) : List NodeId → NodeId → Prop where
  | enter {n : NodeId} {k : EdgeKind} (hedge : c.graph.edge? entry n = some k)
      (hblock : IsBlock c n) : BlockPath c [n] n
  | step {path : List NodeId} {m n : NodeId} {k : EdgeKind} (hpath : BlockPath c path m)
      (hedge : c.graph.edge? m n = some k) (hdirect : k.IsDirect) (hblock : IsBlock c n) :
      BlockPath c (path ++ [n]) n

/-- A beginning of a run is a run. -/
theorem Run.cut (h : Run code run i) {front : List Nat} (hfront : front <+: run)
    (hne : front ≠ []) : ∃ j, Run code front j := by
  induction h with
  | start hpos =>
      have hsingle : front <+: [] ++ [0] := hfront
      rcases List.prefix_concat_iff.1 hsingle with rfl | hnil
      · exact ⟨0, .start hpos⟩
      · exact absurd (List.prefix_nil.1 hnil) hne
  | @next run i j hrun hfollows ih =>
      rcases List.prefix_concat_iff.1 hfront with rfl | hshort
      · exact ⟨j, .next hrun hfollows⟩
      · exact ih hshort

/-! ## Inside a block -/

theorem not_terminator (h : x.op.isTerminator = false) :
    x.op.fallsThrough = true ∧ x.op.targets = [] := by
  revert h
  cases x.op <;> simp [Operation.isTerminator, Operation.fallsThrough, Operation.targets]

/-- Where the next position is no leader, it is the only way on. -/
theorem follows_inside (hi : i + 1 < code.length) (hnot : i + 1 ∉ leaders code regions) :
    Follows code i j ↔ j = i + 1 := by
  have hx : code[i]? = some code[i] := List.getElem?_eq_getElem (by omega)
  have hend : (code[i]).op.isTerminator = false := by
    rw [Bool.eq_false_iff]
    exact fun hend => hnot (mem_leaders_of_terminator hx hend hi)
  obtain ⟨hfalls, htargets⟩ := not_terminator hend
  constructor
  · rintro ⟨x, y, hx', -, hway⟩
    rw [hx] at hx'
    cases hx'
    rcases hway with ⟨hj, -⟩ | htarget
    · exact hj
    · rw [htargets] at htarget
      cases htarget
  · rintro rfl
    exact ⟨_, _, hx, List.getElem?_eq_getElem hi, .inl ⟨rfl, hfalls⟩⟩

/-- Control that leaves a block begins another one. -/
theorem mem_leaders_of_follows (hascend : OffsetsAscend code) (h : Follows code i j)
    (hstop : i + 1 < code.length → i + 1 ∈ leaders code regions) :
    j ∈ leaders code regions := by
  obtain ⟨x, y, hx, hy, ⟨rfl, -⟩ | htarget⟩ := h
  · exact hstop (List.getElem?_eq_some_iff.1 hy).1
  · exact mem_leaders_of_target (List.mem_of_getElem? hx) htarget
      ((indexOf?_eq_some_iff hascend).2 ⟨y, hy, rfl⟩)

namespace Layout

variable {l : Layout}

/-- The positions that a block node covers. -/
def positions (l : Layout) (n : NodeId) : List Nat :=
  match l.leaders[n - 2]? with
  | some s => List.range' s (l.stop s - s)
  | none => []

theorem positions_block (h : l.blockAtIndex? s = some n) :
    l.positions n = List.range' s (l.stop s - s) := by
  obtain ⟨k, rfl, hk⟩ := blockAtIndex?_eq_some h
  simp only [positions, Nat.add_sub_cancel, hk]

/-- A block holds the instructions at the positions that it covers. -/
theorem Sound.map_blockCode (hl : l.Sound) (hs : s ∈ l.leaders) :
    (l.blockCode s).map some = (List.range' s (l.stop s - s)).map fun i => l.code[i]? := by
  obtain ⟨hlt, hle, -⟩ := hl.stop_spec hs
  have hlen : (l.blockCode s).length = l.stop s - s := by
    show ((l.code.drop s).take (l.stop s - s)).length = _
    rw [List.length_take, List.length_drop]
    omega
  apply List.ext_getElem?
  intro k
  rcases Nat.lt_or_ge k (l.stop s - s) with hk | hk
  · have hget : (l.blockCode s)[k]? = l.code[s + k]? := by
      show ((l.code.drop s).take (l.stop s - s))[k]? = _
      rw [List.getElem?_take_of_lt hk, List.getElem?_drop]
    have hsome : l.code[s + k]? = some l.code[s + k] := List.getElem?_eq_getElem (by omega)
    rw [List.getElem?_map, List.getElem?_map, hget, List.getElem?_range' hk, hsome]
    simp [hsome]
  · rw [List.getElem?_eq_none (by simpa [hlen] using hk),
      List.getElem?_eq_none (by simpa using hk)]

theorem Sound.getLast?_blockCode (hl : l.Sound) (hs : s ∈ l.leaders) :
    (l.blockCode s).getLast? = l.code[l.stop s - 1]? := by
  obtain ⟨hlt, hle, -⟩ := hl.stop_spec hs
  have hmap := congrArg List.getLast? (hl.map_blockCode hs)
  rw [List.getLast?_map, List.getLast?_map] at hmap
  have hlast : (List.range' s (l.stop s - s)).getLast? = some (l.stop s - 1) := by
    rw [List.getLast?_range', if_neg (by omega)]
    congr 1
    omega
  have hsome : l.code[l.stop s - 1]? = some l.code[l.stop s - 1] :=
    List.getElem?_eq_getElem (by omega)
  rw [hlast, Option.map_some, hsome] at hmap
  cases hblock : (l.blockCode s).getLast? with
  | none => rw [hblock] at hmap; cases hmap
  | some last =>
      rw [hblock] at hmap
      rw [hsome]
      exact Option.some.inj hmap

/-! ## Between blocks -/

private theorem direct_transfers (hfinally : x.op ≠ .endFinally) {e : NodeId × EdgeKind}
    (h : e ∈ l.transfers config x) : e.2.IsDirect := by
  unfold transfers at h
  split at h
  · next kind target hop =>
    obtain ⟨n, -, rfl⟩ := List.mem_map.1 h
    cases kind <;> simp [branchEdge, EdgeKind.IsDirect]
  · obtain ⟨⟨t, case⟩, -, hmap⟩ := List.mem_filterMap.1 h
    obtain ⟨n, -, rfl⟩ := Option.map_eq_some_iff.1 hmap
    simp [EdgeKind.IsDirect]
  · rw [List.mem_singleton.1 h]
    simp [EdgeKind.IsDirect]
  · rw [List.mem_singleton.1 h]
    simp [EdgeKind.IsDirect]
  · rw [List.mem_singleton.1 h]
    simp [EdgeKind.IsDirect]
  · next hop => exact absurd hop hfinally
  · exact absurd h (by simp)

/-- The transfers that an instruction makes itself go to its targets. -/
private theorem mem_targets_of_transfers (hn : l.blockAtIndex? t = some n)
    {k : EdgeKind} (hdirect : k.IsDirect) (h : (n, k) ∈ l.transfers config x) :
    ∃ y, l.code[t]? = some y ∧ y.offset ∈ x.op.targets := by
  have hexit := ne_exit_of_blockAtIndex? hn
  have hfound : ∀ {o}, l.blockAt? o = some n → ∃ y, l.code[t]? = some y ∧ y.offset = o := by
    intro o ho
    obtain ⟨i, hi, hb⟩ := blockAt?_eq_some ho
    rw [blockAtIndex?_inj hn hb]
    exact indexOf?_eq_some hi
  unfold transfers at h
  split at h
  · next kind target hop =>
    obtain ⟨m, hm, heq⟩ := List.mem_map.1 h
    cases heq
    obtain ⟨y, hy, hoff⟩ := hfound (Option.mem_toList.1 hm)
    exact ⟨y, hy, by rw [hop, hoff]; exact List.mem_singleton_self _⟩
  · next targets hop =>
    obtain ⟨⟨o, case⟩, ho, hmap⟩ := List.mem_filterMap.1 h
    obtain ⟨m, hm, heq⟩ := Option.map_eq_some_iff.1 hmap
    cases heq
    obtain ⟨y, hy, hoff⟩ := hfound hm
    refine ⟨y, hy, ?_⟩
    rw [hop, hoff]
    exact List.mem_of_getElem? (List.mk_mem_zipIdx_iff_getElem?.1 ho)
  · exact absurd (congrArg Prod.fst (List.mem_singleton.1 h)) hexit
  · exact absurd (congrArg Prod.fst (List.mem_singleton.1 h)) hexit
  · exact absurd (congrArg Prod.fst (List.mem_singleton.1 h)) hexit
  · dsimp only at h
    generalize (if config.finallyEdges then l.continuations x.offset else []) = targets at h
    split at h
    · exact absurd (congrArg Prod.fst (List.mem_singleton.1 h)) hexit
    · obtain ⟨m, -, heq⟩ := List.mem_map.1 h
      cases heq
      exact absurd rfl hdirect.2
  · exact absurd h (by simp)

private theorem mem_transfers_of_target (hascend : OffsetsAscend l.code)
    (hn : l.blockAtIndex? t = some n) (hy : l.code[t]? = some y)
    (htarget : y.offset ∈ x.op.targets) : ∃ k, (n, k) ∈ l.transfers config x := by
  have hblock := blockAt?_of_blockAtIndex? hascend hy hn
  unfold transfers
  cases hop : x.op with
  | branch kind target =>
      rw [hop] at htarget
      have hoff : y.offset = target := List.mem_singleton.1 htarget
      refine ⟨branchEdge kind, List.mem_map.2 ⟨n, ?_, rfl⟩⟩
      rw [← hoff, hblock]
      exact List.mem_singleton_self n
  | switch targets =>
      rw [hop] at htarget
      obtain ⟨case, hcase⟩ := List.getElem?_of_mem htarget
      refine ⟨.switch case, List.mem_filterMap.2 ⟨(y.offset, case), ?_, ?_⟩⟩
      · exact List.mk_mem_zipIdx_iff_getElem?.2 hcase
      · simp only [hblock, Option.map_some]
  | _ =>
      rw [hop] at htarget
      exact absurd htarget (by simp [Operation.targets])

/-- The transfer to the next block, for a block with last instruction `x`. -/
def onward (l : Layout) (s : Nat) (x : Instruction) : List (NodeId × EdgeKind) :=
  if x.op.fallsThrough then
    [(((l.nextStart? s).bind l.blockAtIndex?).getD exit, .fallThrough)]
  else []

/-- The transfers that an exception in the block makes. -/
def raised (l : Layout) (config : Config) (s : Nat) : List (NodeId × EdgeKind) :=
  if config.exceptionalEdges then
    ((l.blockCode s).head?.map fun first => l.handlerTransfers first.offset).getD []
  else []

theorem Sound.blockTransfers_eq (hl : l.Sound) (hs : s ∈ l.leaders)
    (hx : l.code[l.stop s - 1]? = some x) :
    l.blockTransfers config s =
      l.transfers config x ++ l.onward s x ++ l.raised config s := by
  have hlast := hl.getLast?_blockCode hs
  rw [hx] at hlast
  simp only [blockTransfers, hlast, Option.map_some, Option.getD_some, Option.any_some]
  rfl

/-- Control passes on to the block that begins where this one stops. -/
theorem Sound.mem_onward (hl : l.Sound) (hs : s ∈ l.leaders)
    (hn : l.blockAtIndex? t = some n) {k : EdgeKind} :
    (n, k) ∈ l.onward s x ↔
      x.op.fallsThrough = true ∧ k = .fallThrough ∧ t = l.stop s := by
  obtain ⟨hlt, hle, hnext, hend, -⟩ := hl.stop_spec hs
  unfold onward
  split
  · next hfalls =>
    simp only [List.mem_singleton, Prod.mk.injEq, hfalls, true_and]
    rcases Nat.lt_or_ge (l.stop s) l.code.length with hinside | hlast
    · obtain ⟨b, hb⟩ := blockAtIndex?_isSome (hl.nextStart?_eq_some.1 (hnext hinside)).1
      rw [hnext hinside, Option.bind_some, hb, Option.getD_some]
      constructor
      · rintro ⟨rfl, rfl⟩
        exact ⟨rfl, blockAtIndex?_inj hn hb⟩
      · rintro ⟨rfl, rfl⟩
        exact ⟨Option.some.inj (hn.symm.trans hb), rfl⟩
    · have htlt := hl.lt_length (mem_leaders_of_blockAtIndex? hn)
      rw [hend (by omega)]
      constructor
      · rintro ⟨hexit, -⟩
        exact absurd hexit (ne_exit_of_blockAtIndex? hn)
      · rintro ⟨-, hstop⟩
        omega
  · next hfalls => simp [hfalls]

private theorem kind_of_mem_raised {e : NodeId × EdgeKind} (h : e ∈ l.raised config s) :
    ∃ type, e.2 = .handler type := by
  unfold raised at h
  split at h
  · cases hfirst : (l.blockCode s).head? with
    | none => simp [hfirst] at h
    | some first =>
        simp only [hfirst, Option.map_some, Option.getD_some, handlerTransfers,
          List.mem_flatMap, List.mem_filterMap] at h
        obtain ⟨r, -, o, -, hmap⟩ := h
        obtain ⟨b, -, rfl⟩ := Option.map_eq_some_iff.1 hmap
        exact ⟨r.exceptionType, rfl⟩
  · exact absurd h (by simp)

private theorem direct_own (hregular : x.op ≠ .endFinally) {e : NodeId × EdgeKind}
    (h : e ∈ l.transfers config x ++ l.onward s x) : e.2.IsDirect := by
  rcases List.mem_append.1 h with hown | honward
  · exact direct_transfers hregular hown
  · unfold onward at honward
    split at honward
    · rw [List.mem_singleton.1 honward]
      simp [EdgeKind.IsDirect]
    · exact absurd honward (by simp)

/-- A direct transfer to a block is a way on. -/
private theorem Sound.follows_of_transfer (hl : l.Sound) (hs : s ∈ l.leaders)
    (hx : l.code[l.stop s - 1]? = some x) (hn : l.blockAtIndex? t = some n) {k : EdgeKind}
    (hdirect : k.IsDirect) (h : (n, k) ∈ l.blockTransfers config s) :
    Follows l.code (l.stop s - 1) t := by
  have hlt := (hl.stop_spec hs).1
  rw [hl.blockTransfers_eq hs hx] at h
  rcases List.mem_append.1 h with hmem | hraised
  · rcases List.mem_append.1 hmem with hown | honward
    · obtain ⟨y, hy, htarget⟩ := mem_targets_of_transfers hn hdirect hown
      exact ⟨x, y, hx, hy, .inr htarget⟩
    · obtain ⟨hfalls, -, hstop⟩ := (hl.mem_onward hs hn).1 honward
      have htlt := hl.lt_length (mem_leaders_of_blockAtIndex? hn)
      exact ⟨x, _, hx, List.getElem?_eq_getElem htlt, .inl ⟨by omega, hfalls⟩⟩
  · obtain ⟨type, htype⟩ := kind_of_mem_raised hraised
    exact absurd htype (hdirect.1 type)

/-- A way on is a direct transfer, and no transfer to the same block stands
before it that is not direct. -/
private theorem Sound.transfer_of_follows (hl : l.Sound) (hascend : OffsetsAscend l.code)
    (hs : s ∈ l.leaders) (hn : l.blockAtIndex? t = some n)
    (h : Follows l.code (l.stop s - 1) t) :
    ∃ e, (l.blockTransfers config s).find? (fun e => e.1 == n) = some e ∧ e.2.IsDirect := by
  have hlt := (hl.stop_spec hs).1
  obtain ⟨x, y, hx, hy, hway⟩ := h
  have hregular : x.op ≠ .endFinally := by
    intro hop
    rw [hop] at hway
    simp [Operation.fallsThrough, Operation.targets] at hway
  have hsome : ∃ k, (n, k) ∈ l.transfers config x ++ l.onward s x := by
    rcases hway with ⟨hj, hfalls⟩ | htarget
    · refine ⟨.fallThrough, List.mem_append_right _ ?_⟩
      exact (hl.mem_onward hs hn).2 ⟨hfalls, rfl, by omega⟩
    · obtain ⟨k, hk⟩ := mem_transfers_of_target hascend hn hy htarget
      exact ⟨k, List.mem_append_left _ hk⟩
  obtain ⟨k, hk⟩ := hsome
  have hfound : ((l.transfers config x ++ l.onward s x).find? fun e => e.1 == n).isSome = true :=
    List.find?_isSome.2 ⟨_, hk, by simp⟩
  obtain ⟨e, he⟩ := Option.isSome_iff_exists.1 hfound
  refine ⟨e, ?_, direct_own hregular (List.mem_of_find?_eq_some he)⟩
  rw [hl.blockTransfers_eq hs hx, List.find?_append, he]
  rfl

/-- **The edges of a block are the ways on** from its last instruction. -/
theorem Sound.direct_edge_iff (hl : l.Sound) (hascend : OffsetsAscend l.code)
    (hm : l.blockAtIndex? s = some m) (hn : l.blockAtIndex? t = some n) :
    (∃ k, (l.graph config).edge? m n = some k ∧ k.IsDirect) ↔
      Follows l.code (l.stop s - 1) t := by
  have hs := mem_leaders_of_blockAtIndex? hm
  have hexit := ne_exit_of_blockAtIndex? hn
  rw [hl.edge?_block hm, if_neg (fun h => hexit h.2), Option.or_none]
  constructor
  · rintro ⟨k, hk, hdirect⟩
    obtain ⟨⟨n', k'⟩, hfind, rfl⟩ := Option.map_eq_some_iff.1 hk
    have hsame : n' = n := by simpa using List.find?_some hfind
    subst hsame
    obtain ⟨hlt, hle, -⟩ := hl.stop_spec hs
    obtain ⟨x, hx⟩ : ∃ x, l.code[l.stop s - 1]? = some x :=
      ⟨_, List.getElem?_eq_getElem (by omega)⟩
    exact hl.follows_of_transfer hs hx hn hdirect (List.mem_of_find?_eq_some hfind)
  · intro hfollows
    obtain ⟨e, he, hdirect⟩ := hl.transfer_of_follows hascend hs hn hfollows
    exact ⟨e.2, by rw [he]; rfl, hdirect⟩

/-! ## A run is part of a path -/

theorem isBlock_block (hc : c.graph = l.graph config) (h : l.blockAtIndex? s = some n) :
    IsBlock c n :=
  ⟨_, by rw [node?, hc, data?_block h]⟩

/-- The run stands at position `i`, and what is left of the block around it
completes a path. -/
def Along (l : Layout) (c : Cfg) (run : List Nat) (i : Nat) : Prop :=
  ∃ path n s, BlockPath c path n ∧ l.blockAtIndex? s = some n ∧ s ≤ i ∧ i < l.stop s ∧
    path.flatMap l.positions = run ++ List.range' (i + 1) (l.stop s - (i + 1))

private theorem range'_cons_of_lt (h : i < j) :
    List.range' i (j - i) = i :: List.range' (i + 1) (j - (i + 1)) := by
  have hlen : j - i = (j - (i + 1)) + 1 := by omega
  rw [hlen, List.range'_succ]

/-- The first block is entered at its first position. -/
theorem Sound.along_start (hl : l.Sound) (hc : c.graph = l.graph config)
    (hpos : 0 < l.code.length) : l.Along c [0] 0 := by
  have hzero : 0 ∈ l.leaders := by
    rw [hl.leaders_eq]
    exact zero_mem_leaders hpos
  obtain ⟨n, hn⟩ := blockAtIndex?_isSome hzero
  have hlt := (hl.stop_spec hzero).1
  have hedge : c.graph.edge? entry n = some .entry := by
    rw [hc, hl.edge?_entry hpos, if_pos hn]
  refine ⟨[n], n, 0, .enter hedge (isBlock_block hc hn), hn, Nat.le_refl 0, hlt, ?_⟩
  rw [List.flatMap_singleton, positions_block hn, range'_cons_of_lt hlt]
  rfl

/-- A run inside a block goes on with the rest of the block, and a run at the
end of a block goes on along an edge. -/
theorem Sound.along_next (hl : l.Sound) (hascend : OffsetsAscend l.code)
    (hc : c.graph = l.graph config) (hrun : l.Along c run i) (h : Follows l.code i j) :
    l.Along c (run ++ [j]) j := by
  obtain ⟨path, n, s, hpath, hn, hsi, hstop, heq⟩ := hrun
  have hs := mem_leaders_of_blockAtIndex? hn
  obtain ⟨hlt, hle, hnext, -, hleast⟩ := hl.stop_spec hs
  rcases Nat.lt_or_ge (i + 1) (l.stop s) with hinside | hend
  · have hnot : i + 1 ∉ Cfg.leaders l.code l.regions := by
      rw [← hl.leaders_eq]
      intro hmem
      have := hleast _ hmem (by omega)
      omega
    have hj := (follows_inside (by omega) hnot).1 h
    subst hj
    refine ⟨path, n, s, hpath, hn, by omega, hinside, ?_⟩
    rw [heq, range'_cons_of_lt hinside, List.append_assoc]
    rfl
  · have hi : i = l.stop s - 1 := by omega
    have hleader : j ∈ l.leaders := by
      rw [hl.leaders_eq]
      refine mem_leaders_of_follows hascend h fun hlast => ?_
      have hstops : i + 1 = l.stop s := by omega
      rw [← hl.leaders_eq, hstops]
      exact (hl.nextStart?_eq_some.1 (hnext (by omega))).1
    obtain ⟨m, hm⟩ := blockAtIndex?_isSome hleader
    rw [hi] at h
    obtain ⟨k, hedge, hdirect⟩ := (hl.direct_edge_iff hascend hn hm).2 h
    have hlt' := (hl.stop_spec hleader).1
    rw [← hc] at hedge
    refine ⟨path ++ [m], m, j, .step hpath hedge hdirect (isBlock_block hc hm), hm,
      Nat.le_refl j, hlt', ?_⟩
    have hdone : l.stop s - (i + 1) = 0 := by omega
    rw [List.flatMap_append, heq, hdone, List.flatMap_singleton, positions_block hm,
      range'_cons_of_lt hlt', List.append_assoc, List.append_assoc]
    rfl

theorem Sound.along_run (hl : l.Sound) (hascend : OffsetsAscend l.code)
    (hc : c.graph = l.graph config) (h : Run l.code run i) : l.Along c run i := by
  induction h with
  | start hpos => exact hl.along_start hc hpos
  | next _ hfollows ih => exact hl.along_next hascend hc ih hfollows

/-! ## A path is a run -/

/-- A run that enters a block goes through it. -/
private theorem run_through (hl : l.Sound) (hs : s ∈ l.leaders)
    (h : Run l.code (run ++ [s]) s) {k : Nat} (hk : s + k < l.stop s) :
    Run l.code (run ++ List.range' s (k + 1)) (s + k) := by
  induction k with
  | zero => exact h
  | succ k ih =>
      obtain ⟨-, hle, -, -, hleast⟩ := hl.stop_spec hs
      have hnot : s + k + 1 ∉ Cfg.leaders l.code l.regions := by
        rw [← hl.leaders_eq]
        intro hmem
        have := hleast _ hmem (by omega)
        omega
      have hfollows : Follows l.code (s + k) (s + k + 1) :=
        (follows_inside (by omega) hnot).2 rfl
      have hlonger := Run.next (ih (by omega)) hfollows
      have hrange : List.range' s (k + 1 + 1) = List.range' s (k + 1) ++ [s + k + 1] :=
        List.range'_1_concat
      rw [hrange, ← List.append_assoc]
      exact hlonger

private theorem run_block (hl : l.Sound) (hn : l.blockAtIndex? s = some n)
    (h : Run l.code (run ++ [s]) s) : Run l.code (run ++ l.positions n) (l.stop s - 1) := by
  have hs := mem_leaders_of_blockAtIndex? hn
  have hlt := (hl.stop_spec hs).1
  have hthrough := run_through hl hs h (k := l.stop s - 1 - s) (by omega)
  have hlen : l.stop s - 1 - s + 1 = l.stop s - s := by omega
  have hlast : s + (l.stop s - 1 - s) = l.stop s - 1 := by omega
  rw [hlen, hlast] at hthrough
  rw [positions_block hn]
  exact hthrough

/-- The blocks of a path are nodes of leaders. -/
private theorem leader_of_edge (hc : c.graph = l.graph config) {k : EdgeKind}
    (hedge : c.graph.edge? m n = some k) (hblock : IsBlock c n) :
    ∃ s, l.blockAtIndex? s = some n := by
  rw [hc] at hedge
  rcases (ends_of_edge? hedge).2 with hexit | hleader
  · obtain ⟨code, hcode⟩ := hblock
    rw [node?, hc, data?_graph, hexit] at hcode
    cases hcode
  · exact hleader

theorem Sound.run_path (hl : l.Sound) (hascend : OffsetsAscend l.code)
    (hc : c.graph = l.graph config) (h : BlockPath c path n) :
    ∃ s, l.blockAtIndex? s = some n ∧
      Run l.code (path.flatMap l.positions) (l.stop s - 1) := by
  induction h with
  | @enter n k hedge hblock =>
      obtain ⟨s, hn⟩ := leader_of_edge hc hedge hblock
      have hpos : 0 < l.code.length :=
        Nat.zero_lt_of_lt (hl.lt_length (mem_leaders_of_blockAtIndex? hn))
      rw [hc, hl.edge?_entry hpos] at hedge
      split at hedge
      · next hzero =>
        refine ⟨0, hzero, ?_⟩
        rw [List.flatMap_singleton]
        have hfirst : Run l.code ([] ++ [0]) 0 := .start hpos
        exact run_block hl hzero hfirst
      · cases hedge
  | @step path m n k _ hedge hdirect hblock ih =>
      obtain ⟨s, hm, hrun⟩ := ih
      obtain ⟨t, hn⟩ := leader_of_edge hc hedge hblock
      rw [hc] at hedge
      have hfollows := (hl.direct_edge_iff hascend hm hn).1 ⟨k, hedge, hdirect⟩
      refine ⟨t, hn, ?_⟩
      rw [List.flatMap_append, List.flatMap_singleton]
      exact run_block hl hn (.next hrun hfollows)

/-- The positions of a path are those of the instructions of its blocks. -/
theorem Sound.map_positions (hl : l.Sound) (hc : c.graph = l.graph config)
    (h : BlockPath c path n) :
    (path.flatMap l.positions).map (fun i => l.code[i]?) = (path.flatMap c.codeOf).map some := by
  have hsingle : ∀ {m n : Nat} {k : EdgeKind}, c.graph.edge? m n = some k → IsBlock c n →
      (l.positions n).map (fun i => l.code[i]?) = (c.codeOf n).map some := by
    intro m n k hedge hblock
    obtain ⟨s, hn⟩ := leader_of_edge hc hedge hblock
    rw [positions_block hn, ← hl.map_blockCode (mem_leaders_of_blockAtIndex? hn), codeOf, node?,
      hc, data?_block hn]
    rfl
  induction h with
  | enter hedge hblock =>
      rw [List.flatMap_singleton, List.flatMap_singleton, hsingle hedge hblock]
  | step _ hedge _ hblock ih =>
      rw [List.flatMap_append, List.flatMap_append, List.map_append, List.map_append, ih,
        List.flatMap_singleton, List.flatMap_singleton, hsingle hedge hblock]

end Layout

/-- An instruction stands at one position only, so positions can be read off
the instructions. -/
private theorem prefix_of_map (hascend : OffsetsAscend code) {front back : List Nat}
    (hin : ∀ i ∈ back, i < code.length)
    (h : front.map (fun i => code[i]?) <+: back.map fun i => code[i]?) : front <+: back := by
  induction front generalizing back with
  | nil => exact List.nil_prefix
  | cons i front ih =>
      cases back with
      | nil => exact absurd (List.prefix_nil.1 h) (by simp)
      | cons j back =>
          rw [List.map_cons, List.map_cons, List.cons_prefix_cons] at h
          obtain ⟨hsame, htail⟩ := h
          obtain ⟨x, hj⟩ : ∃ x, code[j]? = some x :=
            ⟨_, List.getElem?_eq_getElem (hin j List.mem_cons_self)⟩
          have hij : i = j := hascend.inj (hsame.trans hj) hj rfl
          rw [hij, List.cons_prefix_cons]
          exact ⟨rfl, ih (fun k hk => hin k (List.mem_cons_of_mem j hk)) htail⟩

theorem Run.lt_length (h : Run code run i) : ∀ j ∈ run, j < code.length := by
  induction h with
  | start hpos => exact fun j hj => (List.mem_singleton.1 hj).symm ▸ hpos
  | next _ hfollows ih =>
      obtain ⟨_, y, _, hy, _⟩ := hfollows
      intro k hk
      rcases List.mem_append.1 hk with hk | hk
      · exact ih k hk
      · rw [List.mem_singleton.1 hk]
        exact (List.getElem?_eq_some_iff.1 hy).1

/-- **The graph refines the code exactly**: a sequence of positions is a run
of the code if and only if its instructions are a beginning of what the blocks
along some path hold. -/
theorem run_iff_blockPath (h : build method code regions config = .ok c) (hne : run ≠ []) :
    (∃ i, Run code run i) ↔
      ∃ path n, BlockPath c path n ∧
        run.map (fun i => code[i]?) <+: (path.flatMap c.codeOf).map some := by
  obtain ⟨hfault, hc⟩ := build_eq_ok_iff.1 h
  have hgraph : c.graph = (Layout.of code regions).graph config := by rw [hc]
  have hascend := ((fault?_eq_none_iff method).1 hfault).1
  have hl := Layout.sound_of code regions
  constructor
  · rintro ⟨i, hrun⟩
    obtain ⟨path, n, s, hpath, -, -, -, heq⟩ := hl.along_run hascend hgraph hrun
    refine ⟨path, n, hpath, ?_⟩
    rw [← hl.map_positions hgraph hpath, heq, List.map_append]
    exact List.prefix_append _ _
  · rintro ⟨path, n, hpath, hfront⟩
    obtain ⟨s, -, hrun⟩ := hl.run_path hascend hgraph hpath
    rw [← hl.map_positions hgraph hpath] at hfront
    exact hrun.cut (prefix_of_map hascend hrun.lt_length hfront) hne

/-- Code with a loop of two instructions. -/
def shortLoop : List Instruction := [⟨0, .nop⟩, ⟨1, .branch .conditional 0⟩, ⟨2, .return none⟩]

theorem run_iff_blockPath_shortLoop : ∃ c, build none shortLoop [] .default = .ok c ∧
    ∃ path n, BlockPath c path n ∧
      [0, 1, 0, 1, 2].map (fun i => shortLoop[i]?) <+: (path.flatMap c.codeOf).map some := by
  have hbuild : build none shortLoop [] .default =
      .ok ⟨none, (Layout.of shortLoop []).graph .default⟩ :=
    build_eq_ok_iff.2 ⟨by decide, rfl⟩
  have honce : Run shortLoop [0, 1] 1 := .next (.start (by decide)) ⟨_, _, rfl, rfl, by decide⟩
  have hagain : Run shortLoop [0, 1, 0, 1] 1 :=
    .next (.next honce ⟨_, _, rfl, rfl, by decide⟩) ⟨_, _, rfl, rfl, by decide⟩
  refine ⟨_, hbuild, (run_iff_blockPath hbuild (by decide)).1 ⟨2, ?_⟩⟩
  exact .next hagain ⟨_, _, rfl, rfl, by decide⟩

end Cfg

end MethodFlow
