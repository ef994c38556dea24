import Mathlib.Data.List.Find
import MethodFlow.Proofs.Cfg.Blocks

/-!
# Which edge joins two nodes

Of the transfers out of a block the first one to a node makes the edge.  The
transfers that the last instruction makes itself come first, then the one to
the next block, then those to the handlers, region by region.  `Joins` says the
same of the instructions and the regions alone: why control may pass from the
block that ends with an instruction to the block that begins at an offset, the
stronger reason before the weaker one.  `Quits` says when an instruction itself
takes control out of the method.

The two descriptions agree edge by edge because an offset begins one block only
(`Layout.blockAt?_iff`) and a region protects a block as a whole or not at all
(`Layout.Sound.protects_congr`).

## Main results

* `Cfg.Layout.Sound.edge?_between`: the edge between two blocks.
* `Cfg.Layout.Sound.edge?_exit`: the edge from a block to the exit.
* `Cfg.edges_exact`: handler, finally and exit edges of an accepted body.
-/

namespace MethodFlow

namespace Cfg

variable {code : List Instruction} {regions : List Region} {config : Config}
  {method : Option MethodRef} {c : Cfg} {x y : Instruction} {r : Region} {k : EdgeKind}
  {a b : List (NodeId × EdgeKind)} {m n o p s : Nat}

/-! ## Reasons for edges -/

/-- Behind a finally handler that ends at `o` control goes on at `target`: a
leave in a range with this handler takes it there, out of the range. -/
def Continues (code : List Instruction) (regions : List Region) (o target : Offset) : Prop :=
  ∃ r ∈ regions, r.handler = .finally ∧ r.handles o = true ∧
    ∃ y ∈ code, r.protects y.offset = true ∧ y.op = .branch .leave target ∧
      r.protects target = false

/-- `Sends code regions config x o k`: the instruction `x` itself sends control
to the offset `o`, along an edge of kind `k`.  A switch with several cases for
`o` does so with the lowest one. -/
inductive Sends (code : List Instruction) (regions : List Region) (config : Config)
    (x : Instruction) (o : Offset) : EdgeKind → Prop where
  | branch {kind : BranchKind} (hop : x.op = .branch kind o) :
      Sends code regions config x o (Layout.branchEdge kind)
  | switch {targets : List Offset} {case : Nat} (hop : x.op = .switch targets)
      (hcase : targets.idxOf? o = some case) : Sends code regions config x o (.switch case)
  | endFinally (hop : x.op = .endFinally) (hedges : config.finallyEdges = true)
      (hnext : Continues code regions x.offset o) : Sends code regions config x o .endFinally

/-- Control passes from the instruction `x` on to the next one, at `o`. -/
def FallsInto (code : List Instruction) (x : Instruction) (o : Offset) : Prop :=
  x.op.fallsThrough = true ∧
    ∃ i y, code[i]? = some x ∧ code[i + 1]? = some y ∧ y.offset = o

/-- The first region that protects the instruction `x` and has a handler that
is entered at `o`. -/
def handler? (regions : List Region) (x : Instruction) (o : Offset) : Option Region :=
  regions.find? fun r => r.protects x.offset && r.entries.contains o

/-- `Joins code regions config x o k`: control may pass from the block that ends
with `x` to the block that begins at `o`, and `k` is the strongest reason. -/
inductive Joins (code : List Instruction) (regions : List Region) (config : Config)
    (x : Instruction) (o : Offset) : EdgeKind → Prop where
  | sent {k : EdgeKind} (hsent : Sends code regions config x o k) :
      Joins code regions config x o k
  | onward (hsent : ∀ k, ¬ Sends code regions config x o k) (honward : FallsInto code x o) :
      Joins code regions config x o .fallThrough
  | raised {r : Region} (hsent : ∀ k, ¬ Sends code regions config x o k)
      (honward : ¬ FallsInto code x o) (hedges : config.exceptionalEdges = true)
      (hr : handler? regions x o = some r) :
      Joins code regions config x o (.handler r.exceptionType)

/-- `Quits code regions config x k`: the instruction `x` itself takes control
out of the method, along an edge of kind `k`. -/
inductive Quits (code : List Instruction) (regions : List Region) (config : Config)
    (x : Instruction) : EdgeKind → Prop where
  | return {value : Option Variable} (hop : x.op = .return value) :
      Quits code regions config x .return
  | throw {exception : Variable} (hop : x.op = .throw exception) :
      Quits code regions config x .throw
  | rethrow (hop : x.op = .rethrow) : Quits code regions config x .throw
  | endFinally (hop : x.op = .endFinally)
      (hnone : config.finallyEdges = true → ∀ o, ¬ Continues code regions x.offset o) :
      Quits code regions config x .endFinally

theorem sends_endFinally_iff (hop : x.op = .endFinally) :
    Sends code regions config x o k ↔
      (config.finallyEdges = true ∧ Continues code regions x.offset o) ∧ k = .endFinally := by
  constructor
  · intro h
    cases h with
    | branch hop' => rw [hop] at hop'; cases hop'
    | switch hop' => rw [hop] at hop'; cases hop'
    | endFinally _ hedges hnext => exact ⟨⟨hedges, hnext⟩, rfl⟩
  · rintro ⟨⟨hedges, hnext⟩, rfl⟩
    exact .endFinally hop hedges hnext

theorem not_sends_handler {type : Option TypeName} :
    ¬ Sends code regions config x o (.handler type) := by
  generalize hk : EdgeKind.handler type = k
  intro h
  cases h with
  | @branch kind _ => cases kind <;> cases hk
  | switch => cases hk
  | endFinally => cases hk

theorem exists_quits_iff : (∃ k, Quits code regions config x k) ↔
    (∃ value, x.op = .return value) ∨ (∃ exception, x.op = .throw exception) ∨
      x.op = .rethrow ∨ (x.op = .endFinally ∧
        ¬ (config.finallyEdges = true ∧ ∃ o, Continues code regions x.offset o)) := by
  constructor
  · rintro ⟨k, h⟩
    cases h with
    | «return» hop => exact .inl ⟨_, hop⟩
    | throw hop => exact .inr (.inl ⟨_, hop⟩)
    | rethrow hop => exact .inr (.inr (.inl hop))
    | endFinally hop hnone =>
        exact .inr (.inr (.inr ⟨hop, fun ⟨hedges, o, hnext⟩ => hnone hedges o hnext⟩))
  · rintro (⟨value, hop⟩ | ⟨exception, hop⟩ | hop | ⟨hop, hnone⟩)
    · exact ⟨_, .return hop⟩
    · exact ⟨_, .throw hop⟩
    · exact ⟨_, .rethrow hop⟩
    · exact ⟨_, .endFinally hop fun hedges o hnext => hnone ⟨hedges, o, hnext⟩⟩

/-! ## The first transfer to a node -/

/-- The kind of the first transfer to a node. -/
def firstTo (n : NodeId) (transfers : List (NodeId × EdgeKind)) : Option EdgeKind :=
  (transfers.find? fun e => e.1 == n).map Prod.snd

theorem firstTo_nil : firstTo n [] = none := rfl

theorem firstTo_append : firstTo n (a ++ b) = (firstTo n a).or (firstTo n b) := by
  rw [firstTo, List.find?_append, Option.map_or]
  rfl

theorem firstTo_eq_none (h : ∀ e ∈ a, e.1 ≠ n) : firstTo n a = none := by
  rw [firstTo, Option.map_eq_none_iff, List.find?_eq_none]
  intro e he
  simpa using h e he

/-- Where all transfers are of one kind, it does not matter which one is
first. -/
theorem firstTo_map {nodes : List NodeId} {k' : EdgeKind} :
    firstTo n (nodes.map fun m => (m, k)) = some k' ↔ n ∈ nodes ∧ k' = k := by
  have hfind : ((nodes.map fun m => (m, k)).find? fun e => e.1 == n) =
      (nodes.find? fun m => m == n).map fun m => (m, k) := List.find?_map
  rw [firstTo, hfind, Option.map_map]
  constructor
  · intro h
    obtain ⟨m, hm, rfl⟩ := Option.map_eq_some_iff.1 h
    have heq : m = n := by simpa using List.find?_some hm
    exact ⟨heq ▸ List.mem_of_find?_eq_some hm, rfl⟩
  · rintro ⟨hmem, rfl⟩
    obtain ⟨m, hm⟩ := Option.isSome_iff_exists.1
      (List.find?_isSome (p := fun m => m == n) |>.2 ⟨n, hmem, beq_self_eq_true n⟩)
    rw [hm]
    rfl

theorem firstTo_singleton {k' : EdgeKind} : firstTo n [(m, k)] = some k' ↔ n = m ∧ k' = k := by
  have hmap : firstTo n ([m].map fun m => (m, k)) = some k' ↔ n ∈ [m] ∧ k' = k := firstTo_map
  rwa [List.mem_singleton] at hmap

namespace Layout

variable {l : Layout}

/-- A block begins at one offset only. -/
theorem blockAt?_iff (hn : l.blockAt? o = some n) : l.blockAt? p = some n ↔ p = o := by
  constructor
  · intro hp
    obtain ⟨i, hi, hblock⟩ := blockAt?_eq_some hn
    obtain ⟨j, hj, hblock'⟩ := blockAt?_eq_some hp
    obtain ⟨x, hx, rfl⟩ := indexOf?_eq_some hi
    obtain ⟨y, hy, rfl⟩ := indexOf?_eq_some hj
    rw [blockAtIndex?_inj hblock hblock', hy] at hx
    rw [Option.some.inj hx]
  · rintro rfl
    exact hn

theorem ne_exit_of_blockAt? (hn : l.blockAt? o = some n) : n ≠ exit := by
  obtain ⟨i, -, hi⟩ := blockAt?_eq_some hn
  exact ne_exit_of_blockAtIndex? hi

/-! ## Transfers of the last instruction -/

theorem mem_continuations :
    n ∈ l.continuations p ↔ ∃ o, l.blockAt? o = some n ∧ Continues l.code l.regions p o := by
  simp only [continuations, List.mem_eraseDups, List.mem_flatMap, List.mem_filter,
    List.mem_filterMap, Bool.and_eq_true, beq_iff_eq]
  constructor
  · rintro ⟨r, ⟨hr, hfinally, hhandles⟩, y, hy, htarget⟩
    split at htarget
    · next target hop =>
      split at htarget
      · next hout =>
        rw [Bool.not_eq_true'] at hout
        exact ⟨target, htarget, r, hr, hfinally, hhandles, y, hy, hout.1, hop, hout.2⟩
      · cases htarget
    · cases htarget
  · rintro ⟨o, ho, r, hr, hfinally, hhandles, y, hy, hinside, hop, hout⟩
    refine ⟨r, ⟨hr, hfinally, hhandles⟩, y, hy, ?_⟩
    simp only [hop, hinside, hout, Bool.not_false, and_self, if_true, ho]

/-- There is no continuation exactly when control goes on nowhere. -/
theorem Sound.continuations_eq_nil (hl : l.Sound) (htargets : TargetsExist l.code) :
    l.continuations p = [] ↔ ∀ o, ¬ Continues l.code l.regions p o := by
  rw [List.eq_nil_iff_forall_not_mem]
  simp only [mem_continuations]
  constructor
  · intro hnone o hnext
    obtain ⟨r, hr, hfinally, hhandles, y, hy, hinside, hop, hout⟩ := hnext
    -- The target of the leave is an instruction, so a block begins there.
    have htarget : o ∈ y.op.targets := by
      rw [hop]
      exact List.mem_singleton_self o
    obtain ⟨i, hi⟩ := Option.isSome_iff_exists.1 (indexOf?_isSome_iff.2 (htargets y hy o htarget))
    have hleader : i ∈ l.leaders := by
      rw [hl.leaders_eq]
      exact mem_leaders_of_target hy htarget hi
    obtain ⟨n, hn⟩ := blockAtIndex?_isSome hleader
    exact hnone n ⟨o, Option.bind_eq_some_iff.2 ⟨i, hi, hn⟩, r, hr, hfinally, hhandles, y, hy,
      hinside, hop, hout⟩
  · rintro hnone n ⟨o, -, hnext⟩
    exact hnone o hnext

/-- The first case of a switch for a block is the one of the lowest index. -/
private theorem firstTo_cases (hn : l.blockAt? o = some n) (targets : List Offset) :
    firstTo n (targets.zipIdx.filterMap fun e =>
        (l.blockAt? e.1).map fun n => (n, EdgeKind.switch e.2)) =
      (targets.idxOf? o).map .switch := by
  have hcase : (fun e : Offset × Nat =>
      ((l.blockAt? e.1).map fun n => (n, EdgeKind.switch e.2)).any fun e => e.1 == n) =
        fun e => e.1 == o := by
    funext e
    rw [Bool.eq_iff_iff, Option.any_map, Option.any_eq_true]
    simp only [beq_iff_eq, exists_eq_right, blockAt?_iff hn]
  rw [firstTo, List.find?_filterMap, hcase, List.idxOf?, List.findIdx?_eq_fst_find?_zipIdx]
  cases hfound : targets.zipIdx.find? fun e => e.1 == o with
  | none => rfl
  | some e =>
      have heq : e.1 = o := by simpa using List.find?_some hfound
      simp [heq, hn]

/-- Where control goes at the end of a finally handler: on to the
continuations, or to the exit if there is none. -/
def resumed (l : Layout) (config : Config) (o : Offset) : List NodeId :=
  let targets := if config.finallyEdges then l.continuations o else []
  if targets.isEmpty then [exit] else targets

theorem transfers_endFinally (hop : x.op = .endFinally) :
    l.transfers config x = (l.resumed config x.offset).map fun n => (n, .endFinally) := by
  simp only [transfers, hop, resumed]
  generalize (if config.finallyEdges then l.continuations x.offset else []) = targets
  split <;> rfl

theorem mem_resumed (hn : l.blockAt? o = some n) :
    n ∈ l.resumed config p ↔
      config.finallyEdges = true ∧ Continues l.code l.regions p o := by
  have hexit := ne_exit_of_blockAt? hn
  have hmem : n ∈ l.continuations p ↔ Continues l.code l.regions p o := by
    simp only [mem_continuations, blockAt?_iff hn, exists_eq_left]
  rw [← hmem]
  unfold resumed
  cases config.finallyEdges with
  | false => simp [hexit]
  | true =>
      cases hall : l.continuations p with
      | nil => simp [hexit]
      | cons first rest => simp

theorem Sound.exit_mem_resumed (hl : l.Sound) (htargets : TargetsExist l.code) :
    exit ∈ l.resumed config p ↔
      (config.finallyEdges = true → ∀ o, ¬ Continues l.code l.regions p o) := by
  rw [← hl.continuations_eq_nil htargets]
  unfold resumed
  cases config.finallyEdges with
  | false => simp
  | true =>
      cases hall : l.continuations p with
      | nil => simp
      | cons first rest =>
          -- Continuations are blocks.
          have hnot : exit ∉ l.continuations p := by
            rw [mem_continuations]
            rintro ⟨o, ho, -⟩
            exact ne_exit_of_blockAt? ho rfl
          rw [hall] at hnot
          simpa using hnot

/-- The first transfer to a block that the last instruction makes itself. -/
theorem firstTo_transfers (hn : l.blockAt? o = some n) :
    firstTo n (l.transfers config x) = some k ↔ Sends l.code l.regions config x o k := by
  have hexit := ne_exit_of_blockAt? hn
  constructor
  · intro h
    cases hop : x.op with
    | branch kind target =>
        simp only [transfers, hop, firstTo_map, Option.mem_toList, blockAt?_iff hn] at h
        obtain ⟨rfl, rfl⟩ := h
        exact .branch hop
    | switch targets =>
        simp only [transfers, hop] at h
        rw [firstTo_cases hn] at h
        obtain ⟨case, hcase, rfl⟩ := Option.map_eq_some_iff.1 h
        exact .switch hop hcase
    | endFinally =>
        rw [transfers_endFinally hop, firstTo_map, mem_resumed hn] at h
        exact (sends_endFinally_iff hop).2 h
    | _ => simp [transfers, hop, firstTo_nil, firstTo_singleton, hexit] at h
  · intro h
    cases h with
    | branch hop =>
        simp only [transfers, hop, hn, firstTo_map, Option.mem_toList, and_self]
    | switch hop hcase =>
        simp only [transfers, hop]
        rw [firstTo_cases hn, hcase, Option.map_some]
    | endFinally hop hedges hnext =>
        rw [transfers_endFinally hop, firstTo_map, mem_resumed hn]
        exact ⟨⟨hedges, hnext⟩, rfl⟩

/-- The first transfer to the exit that the last instruction makes itself. -/
theorem Sound.firstTo_exit_transfers (hl : l.Sound) (htargets : TargetsExist l.code) :
    firstTo exit (l.transfers config x) = some k ↔ Quits l.code l.regions config x k := by
  constructor
  · intro h
    cases hop : x.op with
    | branch kind target =>
        simp only [transfers, hop, firstTo_map, Option.mem_toList] at h
        exact absurd rfl (ne_exit_of_blockAt? h.1)
    | switch targets =>
        have hnone : firstTo exit (l.transfers config x) = none := by
          refine firstTo_eq_none fun e he => ?_
          simp only [transfers, hop, List.mem_filterMap, Option.map_eq_some_iff] at he
          obtain ⟨case, -, n, hn, rfl⟩ := he
          exact ne_exit_of_blockAt? hn
        rw [hnone] at h
        cases h
    | «return» value =>
        simp only [transfers, hop, firstTo_singleton, true_and] at h
        exact h ▸ .return hop
    | throw exception =>
        simp only [transfers, hop, firstTo_singleton, true_and] at h
        exact h ▸ .throw hop
    | rethrow =>
        simp only [transfers, hop, firstTo_singleton, true_and] at h
        exact h ▸ .rethrow hop
    | endFinally =>
        rw [transfers_endFinally hop, firstTo_map, hl.exit_mem_resumed htargets] at h
        exact h.2 ▸ .endFinally hop h.1
    | _ =>
        simp only [transfers, hop, firstTo_nil] at h
        cases h
  · intro h
    cases h with
    | «return» hop => simp only [transfers, hop, firstTo_singleton, and_self]
    | throw hop => simp only [transfers, hop, firstTo_singleton, and_self]
    | rethrow hop => simp only [transfers, hop, firstTo_singleton, and_self]
    | endFinally hop hnone =>
        rw [transfers_endFinally hop, firstTo_map, hl.exit_mem_resumed htargets]
        exact ⟨hnone, rfl⟩

/-! ## The transfer to the next block -/

theorem Sound.firstTo_onward (hl : l.Sound) (hascend : OffsetsAscend l.code) (hs : s ∈ l.leaders)
    (hx : l.code[l.stop s - 1]? = some x) (hn : l.blockAt? o = some n) :
    firstTo n (l.onward s x) = some k ↔ FallsInto l.code x o ∧ k = .fallThrough := by
  obtain ⟨t, ht, hblock⟩ := blockAt?_eq_some hn
  obtain ⟨y, hy, hoff⟩ := indexOf?_eq_some ht
  have hlt := (hl.stop_spec hs).1
  have hfalls : FallsInto l.code x o ↔ x.op.fallsThrough = true ∧ t = l.stop s := by
    refine and_congr_right fun _ => ⟨?_, ?_⟩
    · rintro ⟨i, z, hi, hz, hoff'⟩
      have hstop := hascend.inj hi hx rfl
      have hnext := hascend.inj hz hy (hoff'.trans hoff.symm)
      omega
    · rintro rfl
      refine ⟨l.stop s - 1, y, hx, ?_, hoff⟩
      rw [show l.stop s - 1 + 1 = l.stop s by omega, hy]
  have hmem : firstTo n (l.onward s x) = some k ↔ (n, k) ∈ l.onward s x := by
    unfold onward
    split
    · rw [firstTo_singleton, List.mem_singleton, Prod.mk.injEq]
    · simp [firstTo_nil]
  rw [hmem, hl.mem_onward hs hblock, hfalls, and_assoc, and_comm (a := k = _)]

/-! ## Transfers to handlers -/

/-- The first transfer to a block that an exception makes belongs to the first
region with a handler there. -/
theorem firstTo_handlerTransfers (hn : l.blockAt? o = some n) :
    firstTo n (l.handlerTransfers x.offset) =
      (handler? l.regions x o).map fun r => .handler r.exceptionType := by
  have hentries : ∀ r : Region, firstTo n (r.entries.filterMap fun e =>
      (l.blockAt? e).map fun n => (n, EdgeKind.handler r.exceptionType)) =
        if o ∈ r.entries then some (.handler r.exceptionType) else none := by
    intro r
    refine Option.ext fun k => ?_
    rw [← List.map_filterMap, firstTo_map, Option.ite_none_right_eq_some, Option.some.injEq,
      eq_comm (b := k)]
    simp only [List.mem_filterMap, blockAt?_iff hn, exists_eq_right]
  rw [handlerTransfers, handler?]
  induction l.regions with
  | nil => rfl
  | cons r rest ih =>
      by_cases hprotects : r.protects x.offset = true
      · rw [List.filter_cons_of_pos (by simpa using hprotects), List.flatMap_cons,
          firstTo_append, hentries, ih]
        by_cases hentry : o ∈ r.entries <;> simp [hprotects, hentry]
      · rw [List.filter_cons_of_neg (by simpa using hprotects), ih]
        simp [hprotects]

/-- A region protects a block as a whole or not at all. -/
theorem Sound.protects_congr (hl : l.Sound) (hascend : OffsetsAscend l.code)
    (hr : r ∈ l.regions) (hadmitted : Admitted config l.code r) (hs : s ∈ l.leaders)
    (hsp : s ≤ p) (hp : p < l.stop s) (hx : l.code[s]? = some x) (hy : l.code[p]? = some y) :
    r.protects x.offset = r.protects y.offset := by
  rw [Bool.eq_iff_iff]
  constructor
  · intro h
    simp only [Region.protects, Bool.and_eq_true, decide_eq_true_eq] at h ⊢
    refine ⟨Nat.le_trans h.1 (hascend.le hx hy hsp), ?_⟩
    rcases hadmitted.tryEnd with ⟨z, hz, hoff⟩ | ⟨last, hlast, hbehind⟩
    · -- The end of the range begins a block, and that is a later one.
      obtain ⟨q, hq⟩ := List.getElem?_of_mem hz
      have hleader : q ∈ l.leaders := by
        rw [hl.leaders_eq]
        exact mem_leaders_of_boundary hr (mem_boundaries.2 (.inl rfl)) hq hoff
      have hsq : s < q := by
        by_contra hqs
        have hle := hascend.le hq hx (by omega)
        rw [hoff] at hle
        exact Nat.not_lt_of_le hle h.2
      have hstop := (hl.stop_spec hs).2.2.2.2 q hleader hsq
      have hlt := hascend.lt hy hq (by omega)
      rwa [hoff] at hlt
    · exact Nat.lt_of_le_of_lt (offset_le_last hascend (List.mem_of_getElem? hy) hlast) hbehind
  · intro h
    exact hl.protects_start hascend hr (hadmitted.tryStart_of_protects hascend
      (List.mem_of_getElem? hy) h) hs hsp hp hx hy h

theorem Sound.protects_block (hl : l.Sound) (hascend : OffsetsAscend l.code)
    (hr : r ∈ l.regions) (hadmitted : Admitted config l.code r) (hs : s ∈ l.leaders)
    (hx : x ∈ l.blockCode s) (hy : y ∈ l.blockCode s) :
    r.protects x.offset = r.protects y.offset := by
  obtain ⟨first, hfirst⟩ := hl.exists_instruction hs
  obtain ⟨p, hsp, hp, hx⟩ := hl.mem_blockCode hs hx
  obtain ⟨q, hsq, hq, hy⟩ := hl.mem_blockCode hs hy
  exact (hl.protects_congr hascend hr hadmitted hs hsp hp hfirst hx).symm.trans
    (hl.protects_congr hascend hr hadmitted hs hsq hq hfirst hy)

theorem Sound.firstTo_raised (hl : l.Sound) (hascend : OffsetsAscend l.code)
    (hregions : ∀ r ∈ l.regions, Admitted config l.code r) (hs : s ∈ l.leaders)
    (hx : l.code[l.stop s - 1]? = some x) (hn : l.blockAt? o = some n) :
    firstTo n (l.raised config s) = some k ↔ config.exceptionalEdges = true ∧
      ∃ r, handler? l.regions x o = some r ∧ .handler r.exceptionType = k := by
  obtain ⟨first, hfirst⟩ := hl.exists_instruction hs
  have hlt := (hl.stop_spec hs).1
  have hsame : handler? l.regions first o = handler? l.regions x o := by
    refine List.find?_congr fun r hr => ?_
    rw [hl.protects_congr hascend hr (hregions r hr) hs (by omega) (by omega) hfirst hx]
  rw [raised, hl.head?_blockCode hs, hfirst, Option.map_some, Option.getD_some]
  split
  · next hedges =>
    rw [firstTo_handlerTransfers hn, hsame, Option.map_eq_some_iff]
    simp only [hedges, true_and]
  · next hedges => simp [firstTo_nil, hedges]

/-! ## The edges of a block -/

/-- **The edge between two blocks** is of the strongest kind that there is a
reason for. -/
theorem Sound.edge?_between (hl : l.Sound) (hascend : OffsetsAscend l.code)
    (hregions : ∀ r ∈ l.regions, Admitted config l.code r) (hm : l.blockAtIndex? s = some m)
    (hx : l.code[l.stop s - 1]? = some x) (hn : l.blockAt? o = some n) :
    (l.graph config).edge? m n = some k ↔ Joins l.code l.regions config x o k := by
  have hs := mem_leaders_of_blockAtIndex? hm
  have hedge : (l.graph config).edge? m n = (firstTo n (l.transfers config x)).or
      ((firstTo n (l.onward s x)).or (firstTo n (l.raised config s))) := by
    rw [hl.edge?_block hm, if_neg (fun h => ne_exit_of_blockAt? hn h.2), Option.or_none,
      ← Option.or_assoc, ← firstTo_append, ← firstTo_append, ← hl.blockTransfers_eq hs hx]
    rfl
  have hsent : ∀ k, firstTo n (l.transfers config x) = some k ↔
      Sends l.code l.regions config x o k := fun k => firstTo_transfers hn
  have honward : ∀ k, firstTo n (l.onward s x) = some k ↔
      FallsInto l.code x o ∧ k = .fallThrough := fun k => hl.firstTo_onward hascend hs hx hn
  rw [hedge, Option.or_eq_some_iff, Option.or_eq_some_iff, Option.eq_none_iff_forall_ne_some,
    Option.eq_none_iff_forall_ne_some, hl.firstTo_raised hascend hregions hs hx hn]
  simp only [ne_eq, hsent, honward]
  constructor
  · rintro (hsent | ⟨hsent, ⟨honward, rfl⟩ | ⟨honward, hedges, r, hr, rfl⟩⟩)
    · exact .sent hsent
    · exact .onward hsent honward
    · exact .raised hsent (fun h => honward _ ⟨h, rfl⟩) hedges hr
  · intro h
    cases h with
    | sent hsent => exact .inl hsent
    | onward hsent honward => exact .inr ⟨hsent, .inl ⟨honward, rfl⟩⟩
    | raised hsent honward hedges hr =>
        exact .inr ⟨hsent, .inr ⟨fun k h => honward h.1, hedges, _, hr, rfl⟩⟩

/-- The block without a next one is the one that ends with the last
instruction. -/
theorem Sound.nextStart?_eq_none_iff (hl : l.Sound) (hascend : OffsetsAscend l.code)
    (hs : s ∈ l.leaders) (hx : l.code[l.stop s - 1]? = some x) :
    l.nextStart? s = none ↔ l.code.getLast? = some x := by
  obtain ⟨hlt, hle, -, hend, -⟩ := hl.stop_spec hs
  have hstop : l.nextStart? s = none ↔ l.stop s = l.code.length := by
    refine ⟨fun hnone => ?_, hend⟩
    rw [stop, hnone, Option.getD_none]
  rw [hstop, List.getLast?_eq_getElem?]
  constructor
  · intro heq
    rw [← heq, hx]
  · intro hlast
    have hsame := hascend.inj hx hlast rfl
    omega

theorem Sound.getLast?_starts (hl : l.Sound) (hs : s ∈ l.leaders) :
    l.starts.getLast? = some s ↔ l.nextStart? s = none := by
  obtain ⟨front, rest, hstarts⟩ := List.append_of_mem (hl.mem_starts.2 hs)
  rw [hl.nextStart?_eq_head? hstarts, List.head?_eq_none_iff]
  have hsorted := hl.pairwise_starts
  rw [hstarts, List.pairwise_append, List.pairwise_cons] at hsorted
  rw [hstarts, List.getLast?_append, List.getLast?_cons, Option.some_or, Option.some.injEq]
  cases hrest : rest.getLast? with
  | none => simp [List.getLast?_eq_none_iff.1 hrest]
  | some last =>
      have hlt : s < last := hsorted.2.1.1 last (List.mem_of_getLast? hrest)
      have hne : rest ≠ [] := List.ne_nil_of_mem (List.mem_of_getLast? hrest)
      simp only [Option.getD_some, hne, iff_false]
      exact (Nat.ne_of_lt hlt).symm

theorem Sound.firstTo_exit_onward (hl : l.Sound) :
    firstTo exit (l.onward s x) = some k ↔
      x.op.fallsThrough = true ∧ l.nextStart? s = none ∧ k = .fallThrough := by
  unfold onward
  split
  · next hfalls =>
    rw [firstTo_singleton]
    cases hnext : l.nextStart? s with
    | none => simp [hfalls]
    | some t =>
        obtain ⟨b, hb⟩ := blockAtIndex?_isSome (hl.nextStart?_eq_some.1 hnext).1
        simp [hb, (ne_exit_of_blockAtIndex? hb).symm]
  · next hfalls => simp [firstTo_nil, hfalls]

theorem firstTo_exit_raised : firstTo exit (l.raised config s) = none := by
  refine firstTo_eq_none fun e he => ?_
  unfold raised at he
  split at he
  · cases hfirst : (l.blockCode s).head? with
    | none => simp [hfirst] at he
    | some first =>
        simp only [hfirst, Option.map_some, Option.getD_some, handlerTransfers,
          List.mem_flatMap, List.mem_filterMap, Option.map_eq_some_iff] at he
        obtain ⟨r, -, o, -, n, hn, rfl⟩ := he
        exact ne_exit_of_blockAt? hn
  · cases he

/-- **The edge from a block to the exit**: the last instruction makes it, or
the block is the last one. -/
theorem Sound.edge?_exit (hl : l.Sound) (hascend : OffsetsAscend l.code)
    (htargets : TargetsExist l.code) (hm : l.blockAtIndex? s = some m)
    (hx : l.code[l.stop s - 1]? = some x) :
    (l.graph config).edge? m exit = some k ↔
      Quits l.code l.regions config x k ∨
        (∀ k, ¬ Quits l.code l.regions config x k) ∧ l.code.getLast? = some x ∧
          k = .fallThrough := by
  have hs := mem_leaders_of_blockAtIndex? hm
  have hedge : (l.graph config).edge? m exit = (firstTo exit (l.transfers config x)).or
      ((firstTo exit (l.onward s x)).or
        (if l.nextStart? s = none then some .fallThrough else none)) := by
    have hfirst : firstTo exit (l.blockTransfers config s) =
        (firstTo exit (l.transfers config x)).or (firstTo exit (l.onward s x)) := by
      rw [hl.blockTransfers_eq hs hx, firstTo_append, firstTo_append, firstTo_exit_raised,
        Option.or_none]
    rw [hl.edge?_block hm, ← Option.or_assoc, ← hfirst]
    simp only [hl.getLast?_starts hs, and_true]
    rfl
  have hquits : ∀ k, firstTo exit (l.transfers config x) = some k ↔
      Quits l.code l.regions config x k := fun k => hl.firstTo_exit_transfers htargets
  have honward : ∀ k, firstTo exit (l.onward s x) = some k ↔
      x.op.fallsThrough = true ∧ l.nextStart? s = none ∧ k = .fallThrough :=
    fun k => hl.firstTo_exit_onward
  rw [hedge, Option.or_eq_some_iff, Option.or_eq_some_iff, Option.eq_none_iff_forall_ne_some,
    Option.eq_none_iff_forall_ne_some, Option.ite_none_right_eq_some, Option.some.injEq]
  simp only [ne_eq, hquits, honward, hl.nextStart?_eq_none_iff hascend hs hx]
  constructor
  · rintro (hquits | ⟨hnone, ⟨-, hlast, rfl⟩ | ⟨-, hlast, rfl⟩⟩)
    · exact .inl hquits
    · exact .inr ⟨hnone, hlast, rfl⟩
    · exact .inr ⟨hnone, hlast, rfl⟩
  · rintro (hquits | ⟨hnone, hlast, rfl⟩)
    · exact .inl hquits
    · by_cases hfalls : x.op.fallsThrough = true
      · exact .inr ⟨hnone, .inl ⟨hfalls, hlast, rfl⟩⟩
      · exact .inr ⟨hnone, .inr ⟨fun k h => hfalls h.1, hlast, rfl⟩⟩

/-- The entry is left along edges of its own kind. -/
theorem kind_of_edge?_entry (h : (l.graph config).edge? entry n = some k) : k = .entry := by
  rw [edge?_graph] at h
  obtain ⟨e, he, rfl⟩ := Option.map_eq_some_iff.1 h
  have hsource := List.find?_some he
  simp only [Bool.and_eq_true, beq_iff_eq] at hsource
  have hmem := List.mem_of_find?_eq_some he
  unfold edges at hmem
  split at hmem
  · simp only [List.mem_append, List.mem_map, List.mem_flatMap, Option.mem_toList] at hmem
    rcases hmem with (⟨m, -, rfl⟩ | ⟨s, -, m, hm, t, -, rfl⟩) | ⟨m, hm, rfl⟩
    · rfl
    · exact absurd hsource.1 (ne_entry_of_blockAtIndex? hm)
    · exact absurd hsource.1 (ne_entry_of_blockAtIndex? hm)
  · rw [List.mem_singleton.1 hmem]

/-- Only exceptional edges lead to handlers. -/
theorem Sound.exceptionalEdges_of_handler (hl : l.Sound) (hascend : OffsetsAscend l.code)
    (htargets : TargetsExist l.code) (hregions : ∀ r ∈ l.regions, Admitted config l.code r)
    {type : Option TypeName} (h : (l.graph config).edge? m n = some (.handler type)) :
    config.exceptionalEdges = true := by
  obtain ⟨hsource, htarget⟩ := ends_of_edge? h
  rcases hsource with rfl | ⟨s, hs⟩
  · cases kind_of_edge?_entry h
  · obtain ⟨hlt, hle, -⟩ := hl.stop_spec (mem_leaders_of_blockAtIndex? hs)
    obtain ⟨x, hx⟩ : ∃ x, l.code[l.stop s - 1]? = some x :=
      ⟨_, List.getElem?_eq_getElem (by omega)⟩
    rcases htarget with rfl | ⟨t, ht⟩
    · rcases (hl.edge?_exit hascend htargets hs hx).1 h with hquits | ⟨-, -, hkind⟩
      · cases hquits
      · cases hkind
    · obtain ⟨y, hy⟩ := hl.exists_instruction (mem_leaders_of_blockAtIndex? ht)
      have hblock := blockAt?_of_blockAtIndex? hascend hy ht
      cases (hl.edge?_between hascend hregions hs hx hblock).1 h with
      | sent hsent => exact absurd hsent not_sends_handler
      | raised _ _ hedges _ => exact hedges

/-- The last instruction of a node is where its block stops. -/
theorem Sound.block_of_last (hl : l.Sound) (hc : c.graph = l.graph config)
    (hx : (c.codeOf m).getLast? = some x) :
    ∃ s, l.blockAtIndex? s = some m ∧ l.code[l.stop s - 1]? = some x := by
  obtain ⟨s, hs, hblock⟩ := hl.block_of_code hc (List.mem_of_getLast? hx)
  rw [hblock, hl.getLast?_blockCode (mem_leaders_of_blockAtIndex? hs)] at hx
  exact ⟨s, hs, hx⟩

end Layout

/-! ## Edges of accepted bodies -/

/-- **Handler, finally and exit edges are exact.**  A region protects all
instructions of a block or none.  With exceptional edges every block is joined
to the handlers of the regions that protect it, and without them no edge leads
to a handler.  An edge between blocks is of the strongest kind that there is a
reason for, and what ends a finally handler is joined to its continuations.  An
edge to the exit leaves the last block, and the blocks whose last instruction
takes control out of the method. -/
theorem edges_exact (h : build method code regions config = .ok c) :
    (∀ r ∈ regions, ∀ m, ∀ x ∈ c.codeOf m, ∀ y ∈ c.codeOf m,
        r.protects x.offset = r.protects y.offset) ∧
      (config.exceptionalEdges = true → ∀ r ∈ regions, ∀ e ∈ r.entries, ∀ m, ∀ x ∈ c.codeOf m,
        r.protects x.offset = true → ∀ n, c.start? n = some e →
          ∃ k, c.graph.edge? m n = some k) ∧
      (config.exceptionalEdges = false → ∀ m n type,
        c.graph.edge? m n ≠ some (.handler type)) ∧
      (∀ m n x o k, (c.codeOf m).getLast? = some x → c.start? n = some o →
        (c.graph.edge? m n = some k ↔ Joins code regions config x o k)) ∧
      (∀ m n x o, (c.codeOf m).getLast? = some x → x.op = .endFinally → c.start? n = some o →
        (c.graph.edge? m n = some .endFinally ↔
          config.finallyEdges = true ∧ Continues code regions x.offset o)) ∧
      ∀ m x, (c.codeOf m).getLast? = some x →
        ((∃ k, c.graph.edge? m exit = some k) ↔
          code.getLast? = some x ∨ (∃ value, x.op = .return value) ∨
            (∃ exception, x.op = .throw exception) ∨ x.op = .rethrow ∨
            (x.op = .endFinally ∧
              ¬ (config.finallyEdges = true ∧ ∃ o, Continues code regions x.offset o))) := by
  obtain ⟨hfault, hc⟩ := build_eq_ok_iff.1 h
  have hgraph : c.graph = (Layout.of code regions).graph config := by rw [hc]
  obtain ⟨hascend, htargets, hregions⟩ := (fault?_eq_none_iff method).1 hfault
  have hl := Layout.sound_of code regions
  have hbetween : ∀ m n x o k, (c.codeOf m).getLast? = some x → c.start? n = some o →
      (c.graph.edge? m n = some k ↔ Joins code regions config x o k) := by
    intro m n x o k hx hn
    obtain ⟨s, hs, hx⟩ := hl.block_of_last hgraph hx
    rw [hgraph]
    exact hl.edge?_between hascend hregions hs hx ((hl.start?_iff hascend hgraph).1 hn)
  have hexit : ∀ m x k, (c.codeOf m).getLast? = some x →
      (c.graph.edge? m exit = some k ↔ Quits code regions config x k ∨
        (∀ k, ¬ Quits code regions config x k) ∧ code.getLast? = some x ∧ k = .fallThrough) := by
    intro m x k hx
    obtain ⟨s, hs, hx⟩ := hl.block_of_last hgraph hx
    rw [hgraph]
    exact hl.edge?_exit hascend htargets hs hx
  refine ⟨fun r hr m x hx y hy => ?_, fun hedges r hr e he m x hx hprotects n hn => ?_,
    fun hedges m n type hedge => ?_, hbetween, fun m n x o hx hop hn => ?_, fun m x hx => ?_⟩
  · obtain ⟨s, hs, hblock⟩ := hl.block_of_code hgraph hx
    rw [hblock] at hx hy
    exact hl.protects_block hascend hr (hregions r hr) (Layout.mem_leaders_of_blockAtIndex? hs)
      hx hy
  · obtain ⟨n', hn', hsucc⟩ := handler_of_protected h hedges hr hx hprotects he
    rw [(hn' n).1 hn]
    exact Digraph.mem_successors_iff.1 hsucc
  · rw [hgraph] at hedge
    have hon := hl.exceptionalEdges_of_handler hascend htargets hregions hedge
    rw [hedges] at hon
    cases hon
  · rw [hbetween m n x o _ hx hn]
    constructor
    · intro hjoins
      cases hjoins with
      | sent hsent => exact ((sends_endFinally_iff hop).1 hsent).1
    · intro hnext
      exact .sent ((sends_endFinally_iff hop).2 ⟨hnext, rfl⟩)
  · rw [← exists_quits_iff]
    simp only [hexit m x _ hx]
    constructor
    · rintro ⟨k, hquits | ⟨-, hlast, -⟩⟩
      · exact .inr ⟨k, hquits⟩
      · exact .inl hlast
    · rintro (hlast | ⟨k, hquits⟩)
      · by_cases hsome : ∃ k, Quits code regions config x k
        · obtain ⟨k, hquits⟩ := hsome
          exact ⟨k, .inl hquits⟩
        · exact ⟨_, .inr ⟨not_exists.1 hsome, hlast, rfl⟩⟩
      · exact ⟨k, .inl hquits⟩

/-- Code that leaves a protected range for its last instruction.  In between
stands the handler, from 2 to 3. -/
def leftRange : List Instruction :=
  [⟨0, .nop⟩, ⟨1, .branch .leave 4⟩, ⟨2, .nop⟩, ⟨3, .endFinally⟩, ⟨4, .return none⟩]

/-- Two regions that share their range and their handler. -/
def sharedHandler : List Region := [⟨0, 2, 2, 4, .finally⟩, ⟨0, 2, 2, 4, .catch "Fault"⟩]

theorem edges_exact_leftRange : ∃ c, build none leftRange sharedHandler .default = .ok c ∧
    Joins leftRange sharedHandler .default ⟨1, .branch .leave 4⟩ 2 (.handler none) ∧
    c.graph.edge? 4 3 = some .endFinally ∧ Continues leftRange sharedHandler 3 4 ∧
    ¬ ∃ k, c.graph.edge? 4 exit = some k := by
  have hbuild : build none leftRange sharedHandler .default =
      .ok ⟨none, (Layout.of leftRange sharedHandler).graph .default⟩ :=
    build_eq_ok_iff.2 ⟨by decide, rfl⟩
  obtain ⟨-, -, -, hbetween, hfinally, hexit⟩ := edges_exact hbuild
  have hnext := ((hfinally 4 3 ⟨3, .endFinally⟩ 4 (by decide) rfl (by decide)).1 (by decide)).2
  refine ⟨_, hbuild, (hbetween 2 4 _ 2 _ (by decide) (by decide)).1 (by decide), by decide,
    hnext, ?_⟩
  rw [hexit 4 ⟨3, .endFinally⟩ (by decide)]
  rintro (hlast | ⟨_, hop⟩ | ⟨_, hop⟩ | hop | ⟨-, hnone⟩)
  · cases hlast
  · cases hop
  · cases hop
  · cases hop
  · exact hnone ⟨rfl, 4, hnext⟩

end Cfg

end MethodFlow
