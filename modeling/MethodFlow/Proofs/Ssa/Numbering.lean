import MethodFlow.Proofs.Ssa.Renaming

/-!
# The numbers of versions

The table lists the versions at the entry, then the phi nodes, then the
defining instructions.  What one site defines, the entry or the phi nodes of a
block, stands in the order of the variables; this one fact about neighbours
in the table says both that no version stands there twice and that the phi
nodes of a block come in order.

Among the versions of its variable a version has as its number the count of
those before it.  Number 0 is the version at the entry, since these stand
first and every variable has one.

## Main results

* `Ssa.ascends_table`, `Ssa.nodup_table`: the order of the table.
* `Ssa.versionOf_eq_zero_iff`: version 0 is the one at the entry.
-/

namespace MethodFlow

theorem pairwise_zipIdx_ne {α : Type} (l : List α) : l.zipIdx.Pairwise fun i j => i.2 ≠ j.2 := by
  rw [← List.pairwise_map, List.zipIdx_map_snd]
  exact List.nodup_range'

namespace Ssa

variable {c : Cfg} {d : Dominators} {order : List NodeId} {x : Variable} {site : DefSite}
  {id n : Nat}

/-! ## The order of the table -/

theorem lt_of_mem_renameOrder (h : n ∈ renameOrder c d) : n < c.view.size :=
  List.mem_range.1 (mem_explore.1 h).mem_pending

theorem ascends_origins (c : Cfg) :
    (origins c).Pairwise fun x y => Ordered.before x y = true :=
  (SortedSet.ofList _).ascending

theorem nodup_origins (c : Cfg) : (origins c).Nodup :=
  (ascends_origins c).imp Ordered.ne_of_before

theorem table_eq : Ssa.table c d order =
    (origins c).map (fun x => (x, .entry)) ++
      ((origins c).flatMap (fun x => (phiBlocks c d x).map fun b => (x, .phi b)) ++
        order.flatMap (blockDefs c)) :=
  List.append_assoc _ _ _

/-- What a table may list one after the other: versions of different sites, or
versions of one site in the order of their variables. -/
def Ascends (e f : Variable × DefSite) : Prop := e.2 = f.2 → Ordered.before e.1 f.1 = true

theorem Ascends.ne {e f : Variable × DefSite} (h : Ascends e f) : e ≠ f := by
  rintro rfl
  exact Ordered.ne_of_before (h rfl) rfl

private theorem ascends_phis (c : Cfg) (d : Dominators) :
    ((origins c).flatMap fun x => (phiBlocks c d x).map fun b => (x, DefSite.phi b)).Pairwise
      Ascends := by
  refine List.pairwise_flatMap.2 ⟨fun x _ => ?_, (ascends_origins c).imp ?_⟩
  · have hnodup : (phiBlocks c d x).Nodup := (d.nodup_iteratedFrontier _).filter _
    exact List.pairwise_map.2 (hnodup.imp fun hne hsite => absurd (DefSite.phi.inj hsite) hne)
  · intro x y hxy e he f hf _
    obtain ⟨b, -, rfl⟩ := List.mem_map.1 he
    obtain ⟨b', -, rfl⟩ := List.mem_map.1 hf
    exact hxy

private theorem mem_blockDefs {e : Variable × DefSite} (h : e ∈ blockDefs c n) :
    ∃ k, e.2 = .instruction n k := by
  obtain ⟨i, -, he⟩ := List.mem_filterMap.1 h
  obtain ⟨y, -, rfl⟩ := Option.map_eq_some_iff.1 he
  exact ⟨i.2, rfl⟩

private theorem ascends_blockDefs (c : Cfg) (n : NodeId) : (blockDefs c n).Pairwise Ascends := by
  refine List.pairwise_filterMap.2 ((pairwise_zipIdx_ne _).imp fun hne e he f hf hsite => ?_)
  obtain ⟨y, -, rfl⟩ := Option.map_eq_some_iff.1 he
  obtain ⟨z, -, rfl⟩ := Option.map_eq_some_iff.1 hf
  exact absurd (DefSite.instruction.inj hsite).2 hne

theorem ascends_table (horder : order.Nodup) : (Ssa.table c d order).Pairwise Ascends := by
  have hentries : ((origins c).map fun x => (x, DefSite.entry)).Pairwise Ascends :=
    List.pairwise_map.2 ((ascends_origins c).imp fun {x y} h (_ : DefSite.entry = .entry) => h)
  have hdefs : (order.flatMap (blockDefs c)).Pairwise Ascends := by
    refine List.pairwise_flatMap.2 ⟨fun n _ => ascends_blockDefs c n, horder.imp ?_⟩
    intro m n hne e he f hf hsite
    obtain ⟨k, hk⟩ := mem_blockDefs he
    obtain ⟨j, hj⟩ := mem_blockDefs hf
    rw [hk, hj] at hsite
    exact absurd (DefSite.instruction.inj hsite).1 hne
  -- Versions from two of the three parts have different sites.
  rw [table_eq, List.pairwise_append, List.pairwise_append]
  refine ⟨hentries, ⟨ascends_phis c d, hdefs, ?_⟩, ?_⟩
  · intro e he f hf hsite
    obtain ⟨x, -, he⟩ := List.mem_flatMap.1 he
    obtain ⟨b, -, rfl⟩ := List.mem_map.1 he
    obtain ⟨n, -, hf⟩ := List.mem_flatMap.1 hf
    obtain ⟨k, hk⟩ := mem_blockDefs hf
    rw [hk] at hsite
    cases hsite
  · intro e he f hf hsite
    obtain ⟨x, -, rfl⟩ := List.mem_map.1 he
    rcases List.mem_append.1 hf with hf | hf
    · obtain ⟨y, -, hf⟩ := List.mem_flatMap.1 hf
      obtain ⟨b, -, rfl⟩ := List.mem_map.1 hf
      cases hsite
    · obtain ⟨n, -, hf⟩ := List.mem_flatMap.1 hf
      obtain ⟨k, hk⟩ := mem_blockDefs hf
      rw [hk] at hsite
      cases hsite

theorem nodup_table (horder : order.Nodup) : (Ssa.table c d order).Nodup :=
  (ascends_table horder).imp Ascends.ne

/-! ## What the table names -/

/-- Something leads to a node with a phi node. -/
theorem exists_edge_of_phi (hc : c.Wired) (h : (x, .phi n) ∈ versions c) :
    ∃ p, n ∈ c.view.succ p := by
  obtain ⟨m, -, hfrontier⟩ :=
    (Dominators.mem_iteratedFrontier hc.linked).1 (List.mem_filter.1 (mem_table.1 h).2).1
  obtain ⟨⟨p, hedge, -⟩, -⟩ := (Dominators.mem_frontier hc.linked).1 hfrontier
  exact ⟨p, hedge⟩

/-- The site of a version lies in the graph. -/
theorem block_lt_of_mem_versions (hc : c.Wired) (h : (x, site) ∈ versions c) :
    site.block < c.view.size := by
  cases site with
  | entry => exact hc.entry_lt
  | phi n =>
      obtain ⟨p, hedge⟩ := exists_edge_of_phi hc h
      exact hc.linked.target_lt hedge
  | instruction n k => exact lt_of_mem_renameOrder (mem_table.1 h).1

/-- Only variables of the code have versions. -/
theorem mem_origins_of_mem_versions (h : (x, site) ∈ versions c) : x ∈ origins c := by
  have hmem := mem_table.1 h
  cases site with
  | entry => exact hmem
  | phi n => exact hmem.1
  | instruction n k =>
      obtain ⟨hn, i, hi, hx⟩ := hmem
      exact mem_origins_of_defined (lt_of_mem_renameOrder hn) (List.mem_of_getElem? hi) hx

/-! ## Version 0 -/

/-- The versions at the entry stand first, numbered like the variables. -/
theorem getElem?_table_of_lt (h : id < (origins c).length) :
    (Ssa.table c d order)[id]? = (origins c)[id]?.map fun x => (x, .entry) := by
  rw [table_eq, List.getElem?_append_left (by simpa using h), List.getElem?_map]

theorem getElem?_origins (h : (Ssa.table c d order)[id]? = some (x, .entry)) :
    (origins c)[id]? = some x := by
  rcases Nat.lt_or_ge id (origins c).length with hlt | hge
  · rw [getElem?_table_of_lt hlt] at h
    obtain ⟨y, hy, heq⟩ := Option.map_eq_some_iff.1 h
    cases heq
    exact hy
  · rw [table_eq, List.getElem?_append_right (by simpa using hge)] at h
    have hmem := List.mem_of_getElem? h
    simp [blockDefs, codeDefs] at hmem

/-- What the entry defines is version 0: the entries of the table before it
belong to other variables. -/
theorem versionOf_entry (h : (Ssa.table c d order)[id]? = some (x, .entry)) :
    versionOf (Ssa.table c d order) id x = 0 := by
  have hx := getElem?_origins h
  have hlt := (List.getElem?_eq_some_iff.1 hx).1
  rw [versionOf, table_eq, List.take_append_of_le_length (by simpa using Nat.le_of_lt hlt),
    List.countP_eq_zero, ← List.map_take]
  intro e he hex
  obtain ⟨y, hy, rfl⟩ := List.mem_map.1 he
  have hsame : y = x := beq_iff_eq.1 hex
  obtain ⟨k, hk⟩ := List.getElem?_of_mem hy
  have hklt := (List.getElem?_eq_some_iff.1 hk).1
  rw [List.length_take] at hklt
  have hkid : k < id := by omega
  rw [List.getElem?_take_of_lt hkid, hsame] at hk
  exact Nat.ne_of_lt hkid
    ((List.getElem?_inj (Nat.lt_trans hkid hlt) (nodup_origins c)).1 (hk.trans hx.symm))

/-- Version 0 is the version at the entry: before any other version stands that
of the entry. -/
theorem versionOf_eq_zero_iff (h : (versions c)[id]? = some (x, site)) :
    versionOf (versions c) id x = 0 ↔ site = .entry := by
  constructor
  · intro hzero
    by_contra hsite
    obtain ⟨k, hk⟩ := List.getElem?_of_mem (mem_origins_of_mem_versions (List.mem_of_getElem? h))
    have hklt := (List.getElem?_eq_some_iff.1 hk).1
    have hentry : (versions c)[k]? = some (x, .entry) := by
      rw [versions, getElem?_table_of_lt hklt, hk]
      rfl
    have hkid : k < id := by
      by_contra hle
      have hlt : id < (origins c).length := by omega
      rw [versions, getElem?_table_of_lt hlt] at h
      obtain ⟨y, -, heq⟩ := Option.map_eq_some_iff.1 h
      exact hsite (Prod.mk.inj heq).2.symm
    have hmem : (x, .entry) ∈ (versions c).take id :=
      List.mem_of_getElem? ((List.getElem?_take_of_lt hkid).trans hentry)
    exact List.countP_eq_zero.1 hzero _ hmem (beq_self_eq_true x)
  · rintro rfl
    exact versionOf_entry h

end Ssa

end MethodFlow
