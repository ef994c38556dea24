import MethodFlow.Proofs.Cfg.Layout

/-!
# Which bodies are accepted

A body is well formed when its offsets ascend, every branch goes to an
instruction, and every range of a region begins at an instruction and ends at
one or behind the last one.  Every well-formed body gets a graph.

The converse fails at one place.  A bound is looked up by its value and not by
its role, so a range may begin behind the last instruction as long as the
same region has a range that ends at the same offset.  Such a beginning is
noticed only where a handler of a protected block is connected, hence only
with exceptional edges and only when the region protects an instruction.
`Admitted` is what is really checked of a region.

## Main results

* `Cfg.fault?_eq_none_iff`: the checks pass exactly on ascending offsets,
  existing targets and admitted regions.
* `Cfg.build_accepts_exactly`: which bodies are accepted, that the others are
  malformed, and when acceptance and well-formedness part.
-/

namespace MethodFlow

/-- The offsets where the ranges of a region begin. -/
def Region.beginnings (r : Region) : List Offset := r.tryStart :: r.entries

namespace Cfg

variable {code : List Instruction} {regions : List Region} {config : Config}
  {r : Region} {o : Nat}

/-- The offset lies behind the last instruction. -/
def Behind (code : List Instruction) (o : Offset) : Prop :=
  ∃ last, code.getLast? = some last ∧ last.offset < o

/-- Every branch goes to an instruction. -/
def TargetsExist (code : List Instruction) : Prop :=
  ∀ x ∈ code, ∀ t ∈ x.op.targets, IsOffset code t

/-- The ranges of a region begin at instructions and end at instructions or
behind the last one. -/
structure RegionFits (code : List Instruction) (r : Region) : Prop where
  tryStart : IsOffset code r.tryStart
  handlerStart : IsOffset code r.handlerStart
  filterStart : ∀ start, r.handler = .filter start → IsOffset code start
  tryEnd : IsOffset code r.tryEnd ∨ Behind code r.tryEnd
  handlerEnd : IsOffset code r.handlerEnd ∨ Behind code r.handlerEnd

/-- A well-formed body. -/
structure WellFormed (code : List Instruction) (regions : List Region) : Prop where
  ascend : OffsetsAscend code
  targets : TargetsExist code
  regions : ∀ r ∈ regions, RegionFits code r

/-- What is checked of a region: a range may also begin behind the last
instruction, where a range of the region ends, unless exceptional edges lead
there. -/
structure Admitted (config : Config) (code : List Instruction) (r : Region) : Prop where
  tryEnd : IsOffset code r.tryEnd ∨ Behind code r.tryEnd
  handlerEnd : IsOffset code r.handlerEnd ∨ Behind code r.handlerEnd
  beginnings : ∀ s ∈ r.beginnings,
    IsOffset code s ∨ ((s = r.tryEnd ∨ s = r.handlerEnd) ∧ Behind code s)
  entries : config.exceptionalEdges = true → (∃ x ∈ code, r.protects x.offset = true) →
    ∀ e ∈ r.entries, IsOffset code e

/-! ## The single checks -/

theorem disorder?_eq_none_iff : disorder? code = none ↔ OffsetsAscend code := by
  unfold OffsetsAscend
  fun_induction disorder? code with
  | case1 a b rest hlt ih =>
      rw [ih]
      refine ⟨fun h => List.pairwise_cons.2 ⟨fun c hc => ?_, h⟩,
        fun h => (List.pairwise_cons.1 h).2⟩
      rcases List.mem_cons.1 hc with rfl | hc
      · exact hlt
      · exact Nat.lt_trans hlt ((List.pairwise_cons.1 h).1 c hc)
  | case2 a b rest hlt =>
      refine ⟨fun h => absurd h (by simp), fun h => ?_⟩
      exact absurd ((List.pairwise_cons.1 h).1 b List.mem_cons_self) hlt
  | case3 code hshort =>
      refine ⟨fun _ => ?_, fun _ => rfl⟩
      match code, hshort with
      | [], _ => exact List.Pairwise.nil
      | [a], _ => exact List.pairwise_singleton _ a
      | a :: b :: rest, hshort => exact absurd rfl (hshort a b rest)

theorem behindLast_iff : behindLast code o = true ↔ Behind code o := by
  unfold behindLast Behind
  cases code.getLast? <;> simp

theorem boundOk_iff : boundOk code r o = true ↔
    IsOffset code o ∨ ((o = r.tryEnd ∨ o = r.handlerEnd) ∧ Behind code o) := by
  simp only [boundOk, Bool.or_eq_true, Bool.and_eq_true, hasOffset_iff, behindLast_iff,
    beq_iff_eq]

theorem badBound?_eq_none_iff : badBound? code regions = none ↔
    ∀ r ∈ regions, ∀ b ∈ r.boundaries,
      IsOffset code b ∨ ((b = r.tryEnd ∨ b = r.handlerEnd) ∧ Behind code b) := by
  simp only [badBound?, List.findSome?_eq_none_iff, List.find?_eq_none, Bool.not_eq_true',
    Bool.not_eq_false, boundOk_iff]

theorem badTarget?_eq_none_iff : badTarget? code = none ↔ TargetsExist code := by
  simp only [badTarget?, TargetsExist, List.findSome?_eq_none_iff, Option.map_eq_none_iff,
    List.find?_eq_none, Bool.not_eq_true', Bool.not_eq_false, hasOffset_iff]

theorem mem_boundaries : o ∈ r.boundaries ↔
    o = r.tryEnd ∨ o = r.handlerEnd ∨ o ∈ r.beginnings := by
  simp only [Region.boundaries, Region.beginnings, List.mem_cons, List.mem_append,
    List.not_mem_nil, or_false]
  constructor
  · rintro (h | h | h | h)
    · exact .inr (.inr (.inl h))
    · exact .inl h
    · exact .inr (.inr (.inr h))
    · exact .inr (.inl h)
  · rintro (h | h | h | h)
    · exact .inr (.inl h)
    · exact .inr (.inr (.inr h))
    · exact .inl h
    · exact .inr (.inr (.inl h))

theorem mem_boundaries_of_mem_entries (h : o ∈ r.entries) : o ∈ r.boundaries :=
  mem_boundaries.2 (.inr (.inr (List.mem_cons_of_mem _ h)))

theorem entries_of_fits (h : RegionFits code r) : ∀ e ∈ r.entries, IsOffset code e := by
  intro e he
  unfold Region.entries at he
  split at he
  · next start hstart =>
    rcases List.mem_cons.1 he with rfl | he
    · exact h.filterStart _ hstart
    · rw [List.mem_singleton.1 he]
      exact h.handlerStart
  · rw [List.mem_singleton.1 he]
    exact h.handlerStart

/-! ## Handlers that begin no block -/

theorem offset_le_last {x last : Instruction} (h : OffsetsAscend code) (hx : x ∈ code)
    (hlast : code.getLast? = some last) : x.offset ≤ last.offset := by
  obtain ⟨i, hi⟩ := List.getElem?_of_mem hx
  obtain ⟨hilt, -⟩ := List.getElem?_eq_some_iff.1 hi
  rw [List.getLast?_eq_getElem?] at hlast
  rcases Nat.lt_or_ge i (code.length - 1) with hlt | hge
  · exact Nat.le_of_lt (h.lt hi hlast hlt)
  · have : i = code.length - 1 := by omega
    rw [this, hlast] at hi
    exact Nat.le_of_eq (congrArg Instruction.offset (Option.some.inj hi).symm)

/-- An instruction at a bound of a region begins a block. -/
theorem blockAt?_isSome_iff (ho : o ∈ r.boundaries) (hr : r ∈ regions) :
    ((Layout.of code regions).blockAt? o).isSome = true ↔ IsOffset code o := by
  constructor
  · intro h
    obtain ⟨n, hn⟩ := Option.isSome_iff_exists.1 h
    obtain ⟨i, hi, -⟩ := Layout.blockAt?_eq_some hn
    obtain ⟨x, hx, hoff⟩ := indexOf?_eq_some hi
    exact ⟨x, List.mem_of_getElem? hx, hoff⟩
  · intro h
    obtain ⟨i, hi⟩ := Option.isSome_iff_exists.1 (indexOf?_isSome_iff.2 h)
    obtain ⟨x, hx, hoff⟩ := indexOf?_eq_some hi
    have hleader := mem_leaders_of_boundary hr ho hx hoff
    obtain ⟨n, hn⟩ := (Layout.blockAtIndex?_isSome
      (l := Layout.of code regions) hleader)
    rw [Option.isSome_iff_exists]
    exact ⟨n, Option.bind_eq_some_iff.2 ⟨i, hi, hn⟩⟩

/-- A region that protects an instruction protects the beginning of a
block. -/
private theorem exists_protected_start (hascend : OffsetsAscend code) (hr : r ∈ regions)
    (hbound : IsOffset code r.tryStart ∨
      ((r.tryStart = r.tryEnd ∨ r.tryStart = r.handlerEnd) ∧ Behind code r.tryStart))
    {x : Instruction} (hx : x ∈ code) (hprotects : r.protects x.offset = true) :
    ∃ start ∈ (Layout.of code regions).starts, ∃ y, code[start]? = some y ∧
      r.protects y.offset = true := by
  simp only [Region.protects, Bool.and_eq_true, decide_eq_true_eq] at hprotects ⊢
  rcases hbound with ⟨y, hy, hoff⟩ | ⟨-, last, hlast, hbehind⟩
  · obtain ⟨start, hstart⟩ := List.getElem?_of_mem hy
    have hboundary : r.tryStart ∈ r.boundaries := List.mem_cons_self
    have hleader := mem_leaders_of_boundary hr hboundary hstart hoff
    refine ⟨start, (Layout.sound_of code regions).mem_starts.2 hleader, y, hstart, ?_⟩
    rw [hoff]
    exact ⟨Nat.le_refl _, Nat.lt_of_le_of_lt hprotects.1 hprotects.2⟩
  · have := offset_le_last hascend hx hlast
    exact absurd (Nat.lt_of_le_of_lt (Nat.le_trans hprotects.1 this) hbehind)
      (Nat.lt_irrefl _)

theorem badHandler?_eq_none_iff (hascend : OffsetsAscend code)
    (hbounds : badBound? code regions = none) :
    (Layout.of code regions).badHandler? = none ↔
      ∀ r ∈ regions, (∃ x ∈ code, r.protects x.offset = true) →
        ∀ e ∈ r.entries, IsOffset code e := by
  have hchecked : (Layout.of code regions).badHandler? = none ↔
      ∀ start ∈ (Layout.of code regions).starts, ∀ x, code[start]? = some x →
        ∀ r ∈ regions, r.protects x.offset = true → ∀ e ∈ r.entries, IsOffset code e := by
    simp only [Layout.badHandler?, List.findSome?_eq_none_iff, Option.bind_eq_none_iff,
      List.find?_eq_none, List.mem_filter, Option.isNone_iff_eq_none, and_imp]
    refine forall₂_congr fun start _ => forall₂_congr fun x _ => forall₃_congr fun r hr _ =>
      forall₂_congr fun e he => ?_
    rw [← blockAt?_isSome_iff (mem_boundaries_of_mem_entries he) hr]
    exact Option.isSome_iff_ne_none.symm
  rw [hchecked]
  constructor
  · rintro h r hr ⟨x, hx, hprotects⟩ e he
    obtain ⟨start, hstart, y, hy, hprotects'⟩ := exists_protected_start hascend hr
      (badBound?_eq_none_iff.1 hbounds r hr _ List.mem_cons_self) hx hprotects
    exact h start hstart y hy r hr hprotects' e he
  · intro h start _ x hx r hr hprotects e he
    exact h r hr ⟨x, List.mem_of_getElem? hx, hprotects⟩ e he

/-! ## All checks together -/

theorem admitted_of_fits (h : RegionFits code r) : Admitted config code r where
  tryEnd := h.tryEnd
  handlerEnd := h.handlerEnd
  beginnings := by
    intro s hs
    rcases List.mem_cons.1 hs with rfl | hs
    · exact .inl h.tryStart
    · exact .inl (entries_of_fits h s hs)
  entries := fun _ _ => entries_of_fits h

theorem fits_of_admitted (h : Admitted config code r)
    (hbegin : ∀ s ∈ r.beginnings, IsOffset code s) : RegionFits code r where
  tryStart := hbegin _ List.mem_cons_self
  handlerStart := by
    refine hbegin _ (List.mem_cons_of_mem _ ?_)
    unfold Region.entries
    split <;> simp
  filterStart := by
    intro start hstart
    refine hbegin _ (List.mem_cons_of_mem _ ?_)
    simp [Region.entries, hstart]
  tryEnd := h.tryEnd
  handlerEnd := h.handlerEnd

/-- The checks pass exactly on ascending offsets, existing targets and
admitted regions. -/
theorem fault?_eq_none_iff (method : Option MethodRef) :
    fault? method code regions config = none ↔
      OffsetsAscend code ∧ TargetsExist code ∧ ∀ r ∈ regions, Admitted config code r := by
  have hsplit : fault? method code regions config = none ↔
      disorder? code = none ∧ badBound? code regions = none ∧ badTarget? code = none ∧
        (config.exceptionalEdges = true → (Layout.of code regions).badHandler? = none) := by
    unfold fault?
    cases disorder? code <;> cases badBound? code regions <;> cases badTarget? code <;>
      cases config.exceptionalEdges <;> simp
  rw [hsplit, disorder?_eq_none_iff, badTarget?_eq_none_iff]
  constructor
  · rintro ⟨hascend, hbounds, htargets, hhandlers⟩
    refine ⟨hascend, htargets, fun r hr => ?_⟩
    have hbound := badBound?_eq_none_iff.1 hbounds r hr
    refine ⟨?_, ?_, fun s hs => hbound s (mem_boundaries.2 (.inr (.inr hs))), ?_⟩
    · exact (hbound _ (mem_boundaries.2 (.inl rfl))).imp_right And.right
    · exact (hbound _ (mem_boundaries.2 (.inr (.inl rfl)))).imp_right And.right
    · intro hedges
      exact (badHandler?_eq_none_iff hascend hbounds).1 (hhandlers hedges) r hr
  · rintro ⟨hascend, htargets, hregions⟩
    have hbounds : badBound? code regions = none := by
      refine badBound?_eq_none_iff.2 fun r hr b hb => ?_
      have hr' := hregions r hr
      rcases mem_boundaries.1 hb with rfl | rfl | hb
      · exact hr'.tryEnd.imp_right fun h => ⟨.inl rfl, h⟩
      · exact hr'.handlerEnd.imp_right fun h => ⟨.inr rfl, h⟩
      · exact hr'.beginnings b hb
    refine ⟨hascend, hbounds, htargets, fun hedges => ?_⟩
    exact (badHandler?_eq_none_iff hascend hbounds).2 fun r hr =>
      (hregions r hr).entries hedges

/-- Building succeeds exactly when the checks pass. -/
theorem build_eq_ok_iff {method : Option MethodRef} {c : Cfg} :
    build method code regions config = .ok c ↔
      fault? method code regions config = none ∧
        c = ⟨method, (Layout.of code regions).graph config⟩ := by
  unfold build
  cases fault? method code regions config with
  | none =>
      simp only [Except.ok.injEq, true_and]
      exact eq_comm
  | some fault => simp

theorem build_wired {method : Option MethodRef} {c : Cfg}
    (h : build method code regions config = .ok c) : c.Wired := by
  obtain ⟨-, rfl⟩ := build_eq_ok_iff.1 h
  exact Layout.wired rfl

/-- **What is accepted.**  A graph is built exactly for ascending offsets,
existing targets and admitted regions; everything else is malformed.
Acceptance means well-formedness except when all of this holds and yet some
range begins where there is no instruction. -/
theorem build_accepts_exactly (method : Option MethodRef) (code : List Instruction)
    (regions : List Region) (config : Config) :
    ((∃ c, build method code regions config = .ok c) ↔
        OffsetsAscend code ∧ TargetsExist code ∧ ∀ r ∈ regions, Admitted config code r) ∧
      ((¬ ∃ c, build method code regions config = .ok c) →
        ∃ fault, build method code regions config = .error (.malformed fault)) ∧
      (((∃ c, build method code regions config = .ok c) ↔ WellFormed code regions) ↔
        ¬ (OffsetsAscend code ∧ TargetsExist code ∧
            (∀ r ∈ regions, Admitted config code r) ∧
            ∃ r ∈ regions, ∃ s ∈ r.beginnings, ¬ IsOffset code s)) := by
  have haccepts : (∃ c, build method code regions config = .ok c) ↔
      OffsetsAscend code ∧ TargetsExist code ∧ ∀ r ∈ regions, Admitted config code r := by
    rw [← fault?_eq_none_iff method]
    constructor
    · rintro ⟨c, hc⟩
      exact (build_eq_ok_iff.1 hc).1
    · intro h
      exact ⟨_, build_eq_ok_iff.2 ⟨h, rfl⟩⟩
  refine ⟨haccepts, fun hrefused => ?_, ?_⟩
  · cases hfault : fault? method code regions config with
    | none => exact absurd ⟨_, build_eq_ok_iff.2 ⟨hfault, rfl⟩⟩ hrefused
    | some fault => exact ⟨fault, by rw [build, hfault]⟩
  · rw [haccepts]
    constructor
    · rintro hiff ⟨hascend, htargets, hregions, r, hr, s, hs, hnone⟩
      have hfits := (hiff.1 ⟨hascend, htargets, hregions⟩).regions r hr
      rcases List.mem_cons.1 hs with rfl | hs
      · exact hnone hfits.tryStart
      · exact hnone (entries_of_fits hfits s hs)
    · intro hregular
      constructor
      · rintro ⟨hascend, htargets, hregions⟩
        refine ⟨hascend, htargets, fun r hr => fits_of_admitted (hregions r hr) ?_⟩
        intro s hs
        by_contra hnone
        exact hregular ⟨hascend, htargets, hregions, r, hr, s, hs, hnone⟩
      · intro hwell
        exact ⟨hwell.ascend, hwell.targets, fun r hr => admitted_of_fits (hwell.regions r hr)⟩

/-- A region that protects nothing, from 5 to 5, is accepted behind a single
instruction at 0. -/
theorem build_accepts_empty_range_behind :
    (∃ c, build none [⟨0, .return none⟩] [⟨5, 5, 0, 1, .finally⟩] .default = .ok c) ∧
      ¬ WellFormed [⟨0, .return none⟩] [⟨5, 5, 0, 1, .finally⟩] := by
  refine ⟨⟨_, build_eq_ok_iff.2 ⟨by decide, rfl⟩⟩, fun h => ?_⟩
  obtain ⟨x, hx, hoff⟩ := (h.regions _ (List.mem_singleton_self _)).tryStart
  rw [List.mem_singleton.1 hx] at hoff
  exact absurd hoff (by decide)

end Cfg

end MethodFlow
