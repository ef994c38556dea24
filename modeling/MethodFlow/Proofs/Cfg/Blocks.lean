import MethodFlow.Proofs.Cfg.Handlers

/-!
# Blocks partition the code

A block runs from its leader up to the next one, so the blocks, taken in the
order of their leaders, make up the code again.  They are numbered in another
order, the one in which reading the code meets the leaders; every number from
2 on belongs to just one of them.

An instruction is looked up by its offset in two ways: by bisection in the
code, and by asking which block holds it.  Both find it, and where there is no
instruction neither finds anything.

## Main results

* `Cfg.Layout.Sound.flatMap_blockCode`: the blocks in lexical order are the
  code.
* `Cfg.begins_iff`: which instructions begin a block.
* `bisect_eq`, `instructionAt?_eq_some_iff`: bisection finds the instruction at
  an offset.
* `Cfg.blocks_partition`: blocks, their first instructions and the look-up by
  offset.
-/

namespace MethodFlow

open Cfg (OffsetsAscend)

variable {code : List Instruction} {x : Instruction} {o : Offset}

/-! ## Bisection -/

/-- Bisection keeps the position of the key inside the range that is left. -/
theorem bisect_eq {offsets : List Offset} {key : Offset} {k : Nat}
    (hascend : offsets.Pairwise (· < ·)) (hk : offsets[k]? = some key) (base size : Nat)
    (hbase : base ≤ k) (hsize : k < base + size) (hlength : base + size ≤ offsets.length) :
    bisect offsets key base size = k := by
  have hlt : ∀ i j, i < j → j < offsets.length → offsets.getD i 0 < offsets.getD j 0 := by
    intro i j hij hj
    have hi : i < offsets.length := Nat.lt_trans hij hj
    simpa [List.getD, hi, hj] using List.pairwise_iff_getElem.1 hascend i j hi hj hij
  have hkey : offsets.getD k 0 = key := by rw [List.getD, hk, Option.getD_some]
  fun_induction bisect offsets key base size with
  | case1 base size hsmall => omega
  | case2 base size hlarge hless ih =>
      -- The middle lies behind the key.
      have hbefore : k < base + size / 2 := by
        by_contra hmid
        rcases Nat.eq_or_lt_of_le (Nat.le_of_not_lt hmid) with heq | hbehind
        · rw [heq, hkey] at hless
          exact Nat.lt_irrefl key hless
        · have hgreater := hlt _ k hbehind (by omega)
          rw [hkey] at hgreater
          exact Nat.lt_asymm hless hgreater
      exact ih hbase (by omega) (by omega)
  | case3 base size hlarge hless ih =>
      have hbehind : base + size / 2 ≤ k := by
        by_contra hmid
        have hgreater := hlt k (base + size / 2) (by omega) (by omega)
        rw [hkey] at hgreater
        exact hless hgreater
      exact ih hbehind (by omega) (by omega)

/-- Bisection finds the instruction at an offset, and nothing where there is
none. -/
theorem instructionAt?_eq_some_iff (hascend : OffsetsAscend code) :
    instructionAt? code o = some x ↔ x ∈ code ∧ x.offset = o := by
  unfold instructionAt?
  constructor
  · intro h
    split at h
    · next y hy =>
      split at h
      · next hoff =>
        cases h
        exact ⟨List.mem_of_getElem? hy, hoff⟩
      · cases h
    · cases h
  · rintro ⟨hx, hoff⟩
    obtain ⟨k, hk⟩ := List.getElem?_of_mem hx
    have hklt := (List.getElem?_eq_some_iff.1 hk).1
    have hfound : bisect (code.map Instruction.offset) o 0 code.length = k := by
      refine bisect_eq (List.pairwise_map.2 hascend) ?_ 0 code.length (Nat.zero_le k) ?_ ?_
      · rw [List.getElem?_map, hk, Option.map_some, hoff]
      · omega
      · rw [List.length_map]
        omega
    rw [hfound, hk]
    simp only [hoff, if_true]

namespace Cfg

variable {regions : List Region} {config : Config} {method : Option MethodRef} {c : Cfg}
  {y : Instruction} {i k m n p s t : Nat}

/-! ## The blocks one after the other -/

namespace Layout

variable {l : Layout}

theorem Sound.pairwise_starts (hl : l.Sound) : l.starts.Pairwise (· < ·) := by
  rw [hl.starts_eq]
  exact List.pairwise_lt_range.filter _

/-- The next block begins at the next of the starts. -/
theorem Sound.nextStart?_eq_head? (hl : l.Sound) {front rest : List Nat}
    (hstarts : l.starts = front ++ s :: rest) : l.nextStart? s = rest.head? := by
  have hsorted := hl.pairwise_starts
  rw [hstarts, List.pairwise_append, List.pairwise_cons] at hsorted
  obtain ⟨-, ⟨hrest, -⟩, hfront⟩ := hsorted
  have hskip : (front ++ [s]).find? (fun t => decide (s < t)) = none := by
    rw [List.find?_eq_none]
    intro t ht
    simp only [decide_eq_true_eq, Nat.not_lt]
    rcases List.mem_append.1 ht with ht | ht
    · exact Nat.le_of_lt (hfront t ht s List.mem_cons_self)
    · exact Nat.le_of_eq (List.mem_singleton.1 ht)
  rw [nextStart?, hstarts, List.append_cons, List.find?_append, hskip, Option.none_or]
  cases rest with
  | nil => rfl
  | cons t rest =>
      rw [List.find?_cons_of_pos (by simpa using hrest t List.mem_cons_self)]
      rfl

/-- The blocks from a start on hold the rest of the code. -/
private theorem Sound.flatMap_blockCode_from (hl : l.Sound) (rest : List Nat) :
    ∀ (front : List Nat) (s : Nat), l.starts = front ++ s :: rest →
      (s :: rest).flatMap l.blockCode = l.code.drop s := by
  induction rest with
  | nil =>
      intro front s hstarts
      have hnext := hl.nextStart?_eq_head? hstarts
      rw [List.flatMap_singleton, blockCode, hnext, List.head?_nil, Option.getD_none]
      exact List.take_of_length_le (Nat.le_of_eq List.length_drop)
  | cons t rest ih =>
      intro front s hstarts
      have hnext := hl.nextStart?_eq_head? hstarts
      have hst : s < t := (hl.nextStart?_eq_some.1 hnext).2.1
      have htail := ih (front ++ [s]) t (by rw [hstarts, List.append_cons])
      rw [List.flatMap_cons, htail, blockCode, hnext, List.head?_cons, Option.getD_some]
      have hdrop : l.code.drop t = (l.code.drop s).drop (t - s) := by
        rw [List.drop_drop]
        congr 1
        omega
      rw [hdrop, List.take_append_drop]

/-- **The blocks in lexical order are the code.** -/
theorem Sound.flatMap_blockCode (hl : l.Sound) : l.starts.flatMap l.blockCode = l.code := by
  rcases Nat.eq_zero_or_pos l.code.length with hempty | hpos
  · rw [hl.starts_eq, hempty, List.eq_nil_of_length_eq_zero hempty]
    rfl
  · have hzero : 0 ∈ l.starts := by
      rw [hl.mem_starts, hl.leaders_eq]
      exact zero_mem_leaders hpos
    obtain ⟨front, rest, hstarts⟩ := List.append_of_mem hzero
    -- Nothing lies before position 0.
    have hfront : front = [] := by
      refine List.eq_nil_iff_forall_not_mem.2 fun t ht => ?_
      have hsorted := hl.pairwise_starts
      rw [hstarts, List.pairwise_append] at hsorted
      exact Nat.not_lt_zero t (hsorted.2.2 t ht 0 List.mem_cons_self)
    rw [hfront] at hstarts
    rw [hstarts]
    exact hl.flatMap_blockCode_from rest [] 0 hstarts

/-- A block is the only one that holds its instructions. -/
theorem Sound.node_unique (hl : l.Sound) (hascend : OffsetsAscend l.code)
    (hc : c.graph = l.graph config) (hx : x ∈ c.codeOf m) (hy : y ∈ c.codeOf n)
    (hxy : x.offset = y.offset) : m = n := by
  obtain ⟨s, hs, hblock⟩ := hl.block_of_code hc hx
  obtain ⟨t, ht, hblock'⟩ := hl.block_of_code hc hy
  rw [hblock] at hx
  rw [hblock'] at hy
  obtain ⟨p, hsp, hp, hcode⟩ := hl.mem_blockCode (mem_leaders_of_blockAtIndex? hs) hx
  obtain ⟨q, htq, hq, hcode'⟩ := hl.mem_blockCode (mem_leaders_of_blockAtIndex? ht) hy
  have hpq : p = q := hascend.inj hcode hcode' hxy
  have hstop := (hl.stop_spec (mem_leaders_of_blockAtIndex? hs)).2.2.2.2 t
    (mem_leaders_of_blockAtIndex? ht)
  have hstop' := (hl.stop_spec (mem_leaders_of_blockAtIndex? ht)).2.2.2.2 s
    (mem_leaders_of_blockAtIndex? hs)
  have hst : s = t := by omega
  rw [hst, ht] at hs
  exact (Option.some.inj hs).symm

/-- The nodes of the blocks in lexical order. -/
def lexical (l : Layout) : List NodeId := l.starts.map fun s => (l.blockAtIndex? s).getD exit

theorem Sound.exists_block (hl : l.Sound) (hs : s ∈ l.starts) :
    ∃ n, l.blockAtIndex? s = some n ∧ (l.blockAtIndex? s).getD exit = n := by
  obtain ⟨n, hn⟩ := blockAtIndex?_isSome (hl.mem_starts.1 hs)
  exact ⟨n, hn, by rw [hn, Option.getD_some]⟩

/-- The numbers from 2 on are the nodes of blocks. -/
theorem Sound.mem_lexical (hl : l.Sound) : n ∈ l.lexical ↔ 2 ≤ n ∧ n < l.leaders.length + 2 := by
  constructor
  · intro hn
    obtain ⟨s, hs, rfl⟩ := List.mem_map.1 hn
    obtain ⟨n, hblock, heq⟩ := hl.exists_block hs
    obtain ⟨k, rfl, hk⟩ := blockAtIndex?_eq_some hblock
    have hklt := (List.getElem?_eq_some_iff.1 hk).1
    rw [heq]
    omega
  · rintro ⟨hle, hlt⟩
    obtain ⟨k, rfl⟩ : ∃ k, n = k + 2 := ⟨n - 2, by omega⟩
    have hk : l.leaders[k]? = some l.leaders[k] := List.getElem?_eq_getElem (by omega)
    have hblock := hl.blockAtIndex?_iff.2 ⟨k, rfl, hk⟩
    refine List.mem_map.2 ⟨l.leaders[k], hl.mem_starts.2 (List.mem_of_getElem? hk), ?_⟩
    rw [hblock, Option.getD_some]

theorem Sound.pairwise_lexical (hl : l.Sound) (hascend : OffsetsAscend l.code)
    (hc : c.graph = l.graph config) :
    l.lexical.Pairwise fun m n =>
      ∃ o p, c.start? m = some o ∧ c.start? n = some p ∧ o < p := by
  refine List.pairwise_map.2 (hl.pairwise_starts.imp_of_mem fun {s t} hs ht hst => ?_)
  obtain ⟨m, hm, heq⟩ := hl.exists_block hs
  obtain ⟨n, hn, heq'⟩ := hl.exists_block ht
  obtain ⟨x, hx⟩ := hl.exists_instruction (hl.mem_starts.1 hs)
  obtain ⟨y, hy⟩ := hl.exists_instruction (hl.mem_starts.1 ht)
  rw [heq, heq', hl.start?_block hc hm, hl.start?_block hc hn, hx, hy]
  exact ⟨_, _, rfl, rfl, hascend.lt hx hy hst⟩

theorem Sound.perm_lexical (hl : l.Sound) (hascend : OffsetsAscend l.code)
    (hc : c.graph = l.graph config) : l.lexical.Perm (List.range' 2 (c.size - 2)) := by
  have hnodup : l.lexical.Nodup := by
    refine (hl.pairwise_lexical hascend hc).imp ?_
    rintro m n ⟨o, p, hm, hn, hlt⟩ rfl
    rw [hm] at hn
    exact Nat.ne_of_lt hlt (Option.some.inj hn)
  refine (List.perm_ext_iff_of_nodup hnodup List.nodup_range').2 fun n => ?_
  rw [hl.mem_lexical, List.mem_range'_1, size, hc, size_graph]
  omega

theorem Sound.flatMap_lexical (hl : l.Sound) (hc : c.graph = l.graph config) :
    l.lexical.flatMap c.codeOf = l.code := by
  have hcode : ∀ s ∈ l.starts, c.codeOf ((l.blockAtIndex? s).getD exit) = l.blockCode s := by
    intro s hs
    obtain ⟨n, hn, heq⟩ := hl.exists_block hs
    rw [heq, codeOf_block hc hn]
  rw [lexical, List.flatMap_map, ← hl.flatMap_blockCode, List.flatMap_def, List.flatMap_def,
    List.map_congr_left hcode]

/-- Every instruction stands in a block. -/
theorem Sound.exists_node (hl : l.Sound) (hc : c.graph = l.graph config) (hx : x ∈ l.code) :
    ∃ n, x ∈ c.codeOf n := by
  rw [← hl.flatMap_lexical hc] at hx
  obtain ⟨n, -, hn⟩ := List.mem_flatMap.1 hx
  exact ⟨n, hn⟩

/-- Inside a block there is no terminator. -/
theorem Sound.length_of_terminator (hl : l.Sound) (hs : s ∈ l.leaders)
    (hx : (l.blockCode s)[k]? = some x) (hend : x.op.isTerminator = true) :
    k + 1 = (l.blockCode s).length := by
  have hlength := hl.length_blockCode hs
  have hk : k < l.stop s - s := hlength ▸ (List.getElem?_eq_some_iff.1 hx).1
  obtain ⟨-, hle, -, -, hleast⟩ := hl.stop_spec hs
  rw [hl.getElem?_blockCode hs k hk] at hx
  by_contra hinside
  have hleader : s + k + 1 ∈ l.leaders := by
    rw [hl.leaders_eq]
    exact mem_leaders_of_terminator hx hend (by omega)
  have := hleast _ hleader (by omega)
  omega

end Layout

/-! ## Where blocks begin -/

/-- Something makes the instruction `x` at position `i` begin a block: it is
the first one, it follows a terminator, it is a mark, or a region or a branch
names its offset. -/
def Begins (code : List Instruction) (regions : List Region) (i : Nat) (x : Instruction) : Prop :=
  i = 0 ∨ (∃ j y, i = j + 1 ∧ code[j]? = some y ∧ y.op.isTerminator = true) ∨
    (∃ mark, x.op = .marker mark) ∨ (∃ r ∈ regions, x.offset ∈ r.boundaries) ∨
    ∃ y ∈ code, x.offset ∈ y.op.targets

private theorem isMarker_iff : x.isMarker = true ↔ ∃ mark, x.op = .marker mark := by
  unfold Instruction.isMarker
  cases x.op <;> simp

/-- The positions where blocks begin are those where something makes one
begin. -/
theorem begins_iff (hascend : OffsetsAscend code) (hx : code[i]? = some x) :
    i ∈ leaders code regions ↔ Begins code regions i x := by
  have hself : (∃ y, code[i]? = some y ∧ startsBlock code regions i y = true) ↔
      startsBlock code regions i x = true := by simp [hx]
  have htarget : (∃ y ∈ code, ∃ t ∈ y.op.targets, indexOf? code t = some i) ↔
      ∃ y ∈ code, x.offset ∈ y.op.targets := by
    refine exists_congr fun y => and_congr_right fun _ => ?_
    simp only [indexOf?_eq_some_iff hascend, hx, Option.some.injEq, exists_eq_left',
      exists_eq_right']
  rw [mem_leaders, hself, htarget]
  simp only [startsBlock, Begins, Bool.or_eq_true, beq_iff_eq, isMarker_iff, List.any_eq_true,
    List.contains_iff_mem, Option.any_eq_true, or_assoc]
  cases i with
  | zero => simp
  | succ j => simp

/-- An instruction is the first of a block exactly when it stands at a
leader. -/
theorem Layout.Sound.head?_codeOf_iff {l : Layout} (hl : l.Sound) (hascend : OffsetsAscend l.code)
    (hc : c.graph = l.graph config) (hx : l.code[i]? = some x) :
    (∃ n, (c.codeOf n).head? = some x) ↔ i ∈ l.leaders := by
  constructor
  · rintro ⟨n, hfirst⟩
    obtain ⟨s, hs, hblock⟩ := hl.block_of_code hc (List.mem_of_mem_head? hfirst)
    have hleader := mem_leaders_of_blockAtIndex? hs
    rw [hblock, hl.head?_blockCode hleader] at hfirst
    rwa [hascend.inj hx hfirst rfl]
  · intro hleader
    obtain ⟨n, hn⟩ := blockAtIndex?_isSome hleader
    exact ⟨n, by rw [codeOf_block hc hn, hl.head?_blockCode hleader, hx]⟩

/-! ## The whole partition -/

/-- The block that holds an instruction is found by its offset. -/
theorem Layout.Sound.nodeAt?_eq_some_iff {l : Layout} (hl : l.Sound)
    (hascend : OffsetsAscend l.code) (hc : c.graph = l.graph config) :
    c.nodeAt? o = some n ↔ ∃ x ∈ c.codeOf n, x.offset = o := by
  have hholds : ∀ n, ((c.codeOf n).any fun i => i.offset == o) = true ↔
      ∃ x ∈ c.codeOf n, x.offset = o := by simp
  rw [nodeAt?, List.find?_range_eq_some, hholds, List.mem_range]
  refine ⟨And.left, fun hfound => ⟨hfound, ?_, fun m hm => ?_⟩⟩
  · obtain ⟨x, hx, -⟩ := hfound
    obtain ⟨s, hs, -⟩ := hl.block_of_code hc hx
    obtain ⟨k, rfl, hk⟩ := blockAtIndex?_eq_some hs
    have hklt := (List.getElem?_eq_some_iff.1 hk).1
    rw [size, hc, size_graph]
    omega
  · rw [Bool.not_eq_true', Bool.eq_false_iff, ne_eq, hholds]
    rintro ⟨y, hy, hoff'⟩
    obtain ⟨x, hx, hoff⟩ := hfound
    exact Nat.ne_of_lt hm (hl.node_unique hascend hc hy hx (hoff'.trans hoff.symm))

/-- **Blocks partition the code at exactly the leaders.**  The nodes from 2 on
are blocks that are not empty, and in the order of their first offsets they make
up the code.  An instruction is the first of a block exactly when something
makes it begin one, so only the last instruction of a block can be a terminator.
An offset has a node exactly when bisection finds an instruction there, and the
node is the only one that holds it. -/
theorem blocks_partition (h : build method code regions config = .ok c) :
    (∀ n, 2 ≤ n → n < c.size → ∃ block, c.node? n = some (.block block) ∧ block ≠ []) ∧
      (∃ order : List NodeId, order.Perm (List.range' 2 (c.size - 2)) ∧
        (order.Pairwise fun m n =>
          ∃ o p, c.start? m = some o ∧ c.start? n = some p ∧ o < p) ∧
        order.flatMap c.codeOf = code) ∧
      (∀ i x, code[i]? = some x →
        ((∃ n, (c.codeOf n).head? = some x) ↔ Begins code regions i x)) ∧
      (∀ n k x, (c.codeOf n)[k]? = some x → x.op.isTerminator = true →
        k + 1 = (c.codeOf n).length) ∧
      (∀ o, (c.nodeAt? o).isSome = true ↔ (instructionAt? code o).isSome = true) ∧
      ∀ o n, c.nodeAt? o = some n →
        ∃ x, instructionAt? code o = some x ∧ ∀ m, x ∈ c.codeOf m ↔ m = n := by
  obtain ⟨hfault, hc⟩ := build_eq_ok_iff.1 h
  have hgraph : c.graph = (Layout.of code regions).graph config := by rw [hc]
  have hascend : OffsetsAscend code := ((fault?_eq_none_iff method).1 hfault).1
  have hl := Layout.sound_of code regions
  have hfound : ∀ {o n}, c.nodeAt? o = some n ↔ ∃ x ∈ c.codeOf n, x.offset = o :=
    hl.nodeAt?_eq_some_iff hascend hgraph
  refine ⟨fun n hle hlt => ?_, ⟨_, hl.perm_lexical hascend hgraph,
    hl.pairwise_lexical hascend hgraph, hl.flatMap_lexical hgraph⟩, fun i x hx => ?_,
    fun n k x hx hend => ?_, fun o => ?_, fun o n hn => ?_⟩
  · rw [size, hgraph, Layout.size_graph] at hlt
    obtain ⟨s, hs, heq⟩ := List.mem_map.1 (hl.mem_lexical.2 ⟨hle, hlt⟩)
    obtain ⟨n', hn', heq'⟩ := hl.exists_block hs
    rw [← heq, heq']
    refine ⟨_, by rw [node?, hgraph, Layout.data?_block hn'], fun hnil => ?_⟩
    have hlength := hl.length_blockCode (hl.mem_starts.1 hs)
    rw [hnil, List.length_nil] at hlength
    have := (hl.stop_spec (hl.mem_starts.1 hs)).1
    omega
  · rw [hl.head?_codeOf_iff hascend hgraph hx]
    exact begins_iff hascend hx
  · obtain ⟨s, hs, hblock⟩ := hl.block_of_code hgraph (List.mem_of_getElem? hx)
    rw [hblock] at hx ⊢
    exact hl.length_of_terminator (Layout.mem_leaders_of_blockAtIndex? hs) hx hend
  · simp only [Option.isSome_iff_exists, hfound, instructionAt?_eq_some_iff hascend]
    constructor
    · rintro ⟨n, x, hx, hoff⟩
      exact ⟨x, hl.mem_code hgraph hx, hoff⟩
    · rintro ⟨x, hx, hoff⟩
      obtain ⟨n, hn⟩ := hl.exists_node hgraph hx
      exact ⟨n, x, hn, hoff⟩
  · obtain ⟨x, hx, hoff⟩ := hfound.1 hn
    refine ⟨x, (instructionAt?_eq_some_iff hascend).2 ⟨hl.mem_code hgraph hx, hoff⟩, fun m => ?_⟩
    constructor
    · exact fun hm => hl.node_unique hascend hgraph hm hx rfl
    · rintro rfl
      exact hx

/-- Code whose first instruction branches ahead, so that the last block is
numbered before the one in between. -/
def skipAhead : List Instruction := [⟨0, .branch .conditional 2⟩, ⟨1, .nop⟩, ⟨2, .return none⟩]

theorem blocks_partition_skipAhead :
    ∃ c, build none skipAhead [⟨0, 1, 2, 3, .finally⟩] .default = .ok c ∧
      c.codeOf 3 = [⟨2, .return none⟩] ∧ c.codeOf 4 = [⟨1, .nop⟩] ∧
      (∃ order : List NodeId, order.Perm (List.range' 2 (c.size - 2)) ∧
        order.flatMap c.codeOf = skipAhead) ∧
      ∃ x, instructionAt? skipAhead 1 = some x ∧ ∀ m, x ∈ c.codeOf m ↔ m = 4 := by
  have hbuild : build none skipAhead [⟨0, 1, 2, 3, .finally⟩] .default =
      .ok ⟨none, (Layout.of skipAhead [⟨0, 1, 2, 3, .finally⟩]).graph .default⟩ :=
    build_eq_ok_iff.2 ⟨by decide, rfl⟩
  obtain ⟨-, ⟨order, hperm, -, hcode⟩, -, -, -, hfound⟩ := blocks_partition hbuild
  exact ⟨_, hbuild, by decide, by decide, ⟨order, hperm, hcode⟩, hfound 1 4 (by decide)⟩

end Cfg

end MethodFlow
