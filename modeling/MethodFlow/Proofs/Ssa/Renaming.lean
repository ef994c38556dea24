import Mathlib.Data.List.Induction
import MethodFlow.Proofs.Cfg.Layout
import MethodFlow.Proofs.Graph.DominatorTree
import MethodFlow.Proofs.Ssa.Environments

/-!
# Versions along the dominator tree

Renaming gives every node the versions that its parent in the dominator tree
ends with.  Control does not come from the parent but from a predecessor, so
the versions there must be the same, except where a phi node makes a new one.
They are: the nodes between a predecessor and the parent dominate the
predecessor and do not strictly dominate the node, hence have it in their
frontier, and a new version in one of them would have put a phi node here.

## Main results

* `Ssa.entering_of_idom?`: every node starts with the versions of its parent.
* `Ssa.names_entering`, `Ssa.names_leaving`: everywhere each variable of the
  code has a current version, and it is a version of that variable.
* `Ssa.entering_eq_leaving`: without a phi node, a variable has the same
  version at the end of every predecessor and at the beginning of a node.
-/

namespace MethodFlow

/-- Of several entries stored one after the other for one key, one is found;
other keys keep what they had. -/
theorem SortedMap.get?_foldl_insert {α β : Type} [Ordered α] [DecidableEq α]
    (l : List (α × β)) (m : SortedMap α β) (k : α) :
    (∃ v, (k, v) ∈ l ∧ (l.foldl (fun m e => m.insert e.1 e.2) m).get? k = some v) ∨
      ((∀ v, (k, v) ∉ l) ∧ (l.foldl (fun m e => m.insert e.1 e.2) m).get? k = m.get? k) := by
  induction l generalizing m with
  | nil => exact .inr ⟨fun v => List.not_mem_nil, rfl⟩
  | cons e rest ih =>
      rw [List.foldl_cons]
      rcases ih (m.insert e.1 e.2) with ⟨v, hv, hget⟩ | ⟨hnone, hget⟩
      · exact .inl ⟨v, List.mem_cons_of_mem e hv, hget⟩
      · rw [hget, SortedMap.get?_insert]
        by_cases hk : k = e.1
        · refine .inl ⟨e.2, ?_, if_pos hk⟩
          rw [hk]
          exact List.mem_cons_self
        · refine .inr ⟨fun v hv => ?_, if_neg hk⟩
          rcases List.mem_cons.1 hv with rfl | hv
          · exact hk rfl
          · exact hnone v hv

namespace Ssa

variable {c : Cfg} {d : Dominators} {table : List (Variable × DefSite)}
  {order : List NodeId} {code : List Instruction} {env : Env} {x y : Variable}
  {site : DefSite} {id k n p q : Nat}

/-! ## The order of renaming -/

/-- Every parent stands before its children. -/
def ParentsFirst (d : Dominators) (order : List NodeId) : Prop :=
  ∀ {before after : List NodeId} {n p : NodeId}, order = before ++ n :: after →
    d.idom? n = some p → p ∈ before

theorem parentsFirst_renameOrder (hc : c.Wired) :
    ParentsFirst c.dominators (renameOrder c c.dominators) := by
  intro before after n p horder hp
  rcases explore_origin horder with hroot | ⟨q, hq, hchild⟩
  · rcases List.mem_cons.1 hroot with rfl | hroot
    · have hnone : c.dominators.idom? Cfg.entry = none :=
        Dominators.idom?_root hc.linked hc.entry_lt
      rw [hnone] at hp
      cases hp
    · have hnone := (List.mem_filter.1 hroot).2
      simp [hp] at hnone
  · have hparent : c.dominators.idom? n = some q := (Dominators.mem_children hc.linked).1 hchild
    rw [hp] at hparent
    cases hparent
    exact hq

theorem nodup_renameOrder : (renameOrder c d).Nodup := nodup_explore List.nodup_range

/-- Every node is renamed. -/
theorem mem_renameOrder (hc : c.Wired) (hn : n < c.view.size) :
    n ∈ renameOrder c c.dominators := by
  rw [renameOrder, mem_explore]
  induction n using Dominators.idom?_induction c.view Cfg.entry with
  | node n ih =>
      cases hp : c.dominators.idom? n with
      | none =>
          refine .root (List.mem_range.2 hn) ?_
          simp [roots, View.nodes, hn, hp, Decidable.em]
      | some p =>
          have hparent := ih p hp (Dominators.idom?_lt hc.linked hp).1
          exact .step hparent (List.mem_range.2 hn) ((Dominators.mem_children hc.linked).2 hp)

private theorem exitEnvs_concat (order : List NodeId) (n : NodeId) :
    exitEnvs c d table (order ++ [n]) =
      (exitEnvs c d table order).insert n
        (exitEnv c table n (inherited d table (exitEnvs c d table order) n)) := by
  rw [exitEnvs, List.foldl_append]
  rfl

private theorem inherited_concat (hn : n ∉ order) (hq : ∀ p, d.idom? q = some p → p ∈ order) :
    inherited d table (exitEnvs c d table (order ++ [n])) q =
      inherited d table (exitEnvs c d table order) q := by
  unfold inherited
  cases hp : d.idom? q with
  | none => rfl
  | some p =>
      have hne : p ≠ n := fun h => hn (h ▸ hq p hp)
      rw [Option.bind_some, Option.bind_some, exitEnvs_concat, SortedMap.get?_insert, if_neg hne]

/-- A node that comes later changes nothing for the nodes before it. -/
theorem get?_exitEnvs (hnodup : order.Nodup) (hfirst : ParentsFirst d order) (hn : n ∈ order) :
    (exitEnvs c d table order).get? n =
      some (exitEnv c table n (inherited d table (exitEnvs c d table order) n)) := by
  induction order using List.reverseRecOn with
  | nil => cases hn
  | append_singleton order last ih =>
      obtain ⟨hnodup', -, hdisjoint⟩ := List.nodup_append.1 hnodup
      have hlast : last ∉ order := fun h => hdisjoint last h last (List.mem_singleton_self _) rfl
      have hparent : ∀ p, d.idom? last = some p → p ∈ order := fun p hp => hfirst rfl hp
      rw [exitEnvs_concat, SortedMap.get?_insert]
      by_cases hsame : n = last
      · subst hsame
        rw [if_pos rfl, ← exitEnvs_concat, inherited_concat hlast hparent]
      · have hn' : n ∈ order := (List.mem_append.1 hn).resolve_right fun h =>
          hsame (List.mem_singleton.1 h)
        have hfirst' : ParentsFirst d order := by
          intro before after m p horder hp
          have hlonger : order ++ [last] = before ++ m :: (after ++ [last]) := by
            rw [horder, List.append_assoc]
            rfl
          exact hfirst hlonger hp
        have hearlier : ∀ p, d.idom? n = some p → p ∈ order := by
          intro p hp
          obtain ⟨before, after, horder⟩ := List.append_of_mem hn'
          rw [horder]
          exact List.mem_append_left _ (hfirst' horder hp)
        rw [if_neg hsame, ← exitEnvs_concat, inherited_concat hlast hearlier]
        exact ih hnodup' hfirst' hn'

/-- A node starts with the versions of its parent. -/
theorem entering_of_idom? (hc : c.Wired) (h : c.dominators.idom? n = some p) :
    entering c n = leaving c p := by
  rw [entering, inherited, h, Option.bind_some,
    get?_exitEnvs nodup_renameOrder (parentsFirst_renameOrder hc)
      (mem_renameOrder hc (Dominators.idom?_lt hc.linked h).1)]
  rfl

theorem entering_of_root (h : c.dominators.idom? n = none) :
    entering c n = startEnv (versions c) := by
  rw [entering, inherited, h]
  rfl

/-! ## The table of versions -/

theorem mem_origins_of_used {i : Instruction} (hn : n < c.size) (hi : i ∈ c.codeOf n)
    (hx : x ∈ i.op.used) : x ∈ origins c := by
  rw [origins, SortedSet.mem_toList, SortedSet.mem_ofList, List.mem_flatMap]
  exact ⟨i, List.mem_flatMap.2 ⟨n, List.mem_range.2 hn, hi⟩, List.mem_append_left _ hx⟩

theorem mem_origins_of_defined {i : Instruction} (hn : n < c.size) (hi : i ∈ c.codeOf n)
    (hx : i.op.defined = some x) : x ∈ origins c := by
  rw [origins, SortedSet.mem_toList, SortedSet.mem_ofList, List.mem_flatMap]
  refine ⟨i, List.mem_flatMap.2 ⟨n, List.mem_range.2 hn, hi⟩, ?_⟩
  exact List.mem_append_right _ (Option.mem_toList.2 hx)

/-- A variable of the code has a version for the entry, one for each of its
phi nodes and one for each instruction that defines it. -/
theorem mem_table : (x, site) ∈ Ssa.table c d order ↔
    match site with
    | .entry => x ∈ origins c
    | .phi n => x ∈ origins c ∧ n ∈ phiBlocks c d x
    | .instruction n k =>
        n ∈ order ∧ ∃ i, (c.codeOf n)[k]? = some i ∧ i.op.defined = some x := by
  cases site <;>
    simp [Ssa.table, blockDefs, codeDefs, List.mem_zipIdx_iff_getElem?]

theorem getElem?_of_idxOf? {e : Variable × DefSite} (h : table.idxOf? e = some id) :
    table[id]? = some e := by
  obtain ⟨hlt, heq, -⟩ := List.findIdx?_eq_some_iff_getElem.1 h
  rw [List.getElem?_eq_getElem hlt, eq_of_beq heq]

/-! ## Versions of the right variable -/

/-- Every variable of the code has a current version, and what a variable has
is a version of its own. -/
structure Names (c : Cfg) (table : List (Variable × DefSite)) (env : Env) : Prop where
  own : ∀ {x : Variable} {id : SsaId}, env.get? x = some id →
    ∃ site, table[id]? = some (x, site)
  total : ∀ {x : Variable}, x ∈ origins c → ∃ id, env.get? x = some id

theorem Names.insert (h : Names c table env) (hid : table[id]? = some (x, site)) :
    Names c table (env.insert x id) where
  own := by
    intro y k hy
    rw [SortedMap.get?_insert] at hy
    split at hy
    · next hyx =>
      cases hy
      exact ⟨site, hyx ▸ hid⟩
    · exact h.own hy
  total := by
    intro y hy
    rw [SortedMap.get?_insert]
    split
    · exact ⟨id, rfl⟩
    · exact h.total hy

/-- What holds of the current versions holds of the versions of operands, and
none of them is missing. -/
theorem Names.map_uses {β : Type} (h : Names c table env) {f : SsaId → β} {g : Variable → β}
    {used : List Variable} (hused : ∀ x ∈ used, x ∈ origins c)
    (hsame : ∀ x ∈ used, ∀ id, env.get? x = some id → f id = g x) :
    (used.filterMap env.get?).map f = used.map g := by
  induction used with
  | nil => rfl
  | cons x rest ih =>
      obtain ⟨id, hid⟩ := h.total (hused x List.mem_cons_self)
      have hrest := ih (fun y hy => hused y (List.mem_cons_of_mem x hy))
        fun y hy => hsame y (List.mem_cons_of_mem x hy)
      rw [List.filterMap_cons_some hid, List.map_cons, List.map_cons, hrest,
        hsame x List.mem_cons_self id hid]

/-- The versions at the entry with their variables. -/
private def initials (table : List (Variable × DefSite)) : List (Variable × SsaId) :=
  table.zipIdx.filterMap fun e => if e.1.2 = .entry then some (e.1.1, e.2) else none

private theorem mem_initials : (x, id) ∈ initials table ↔ table[id]? = some (x, .entry) := by
  simp only [initials, List.mem_filterMap, Option.ite_none_right_eq_some, Option.some.injEq,
    Prod.mk.injEq, Prod.exists, List.mk_mem_zipIdx_iff_getElem?]
  constructor
  · rintro ⟨y, site, k, hget, rfl, rfl, rfl⟩
    exact hget
  · intro hget
    exact ⟨x, .entry, id, hget, rfl, rfl, rfl⟩

private theorem startEnv_eq :
    startEnv table = (initials table).foldl (fun m e => m.insert e.1 e.2) .empty := by
  rw [startEnv, initials, List.foldl_filterMap]
  congr 1
  funext env e
  by_cases he : e.1.2 = .entry <;> simp [he]

theorem get?_startEnv (table : List (Variable × DefSite)) (x : Variable) :
    (∃ id, table[id]? = some (x, .entry) ∧ (startEnv table).get? x = some id) ∨
      ((x, .entry) ∉ table ∧ (startEnv table).get? x = none) := by
  rw [startEnv_eq]
  rcases SortedMap.get?_foldl_insert (initials table) .empty x with ⟨id, hid, hget⟩ | ⟨hnone, hget⟩
  · exact .inl ⟨id, mem_initials.1 hid, hget⟩
  · refine .inr ⟨fun hmem => ?_, hget⟩
    obtain ⟨id, hid⟩ := List.getElem?_of_mem hmem
    exact hnone id (mem_initials.2 hid)

theorem names_startEnv : Names c (Ssa.table c d order) (startEnv (Ssa.table c d order)) where
  own := by
    intro x id h
    rcases get?_startEnv (Ssa.table c d order) x with ⟨k, hk, hget⟩ | ⟨-, hget⟩
    · rw [h] at hget
      cases hget
      exact ⟨.entry, hk⟩
    · rw [h] at hget
      cases hget
  total := by
    intro x hx
    rcases get?_startEnv (Ssa.table c d order) x with ⟨k, -, hget⟩ | ⟨hnone, -⟩
    · exact ⟨k, hget⟩
    · exact absurd (mem_table.2 hx) hnone

theorem mem_barePhis {phi : Phi} :
    phi ∈ barePhis table n ↔
      table[phi.result]? = some (phi.origin, .phi n) ∧ phi.operands = [] := by
  obtain ⟨result, origin, operands⟩ := phi
  simp only [barePhis, List.mem_filterMap, Option.ite_none_right_eq_some, Option.some.injEq,
    Phi.mk.injEq, Prod.exists, List.mk_mem_zipIdx_iff_getElem?]
  constructor
  · rintro ⟨y, site, k, hget, rfl, rfl, rfl, rfl⟩
    exact ⟨hget, rfl⟩
  · rintro ⟨hget, rfl⟩
    exact ⟨origin, .phi n, result, hget, rfl, rfl, rfl, rfl⟩

/-- A phi node makes the current version of its variable; other variables keep
theirs. -/
theorem get?_withPhis (table : List (Variable × DefSite)) (n : NodeId) (env : Env)
    (x : Variable) :
    (∃ id, table[id]? = some (x, .phi n) ∧ (withPhis table n env).get? x = some id) ∨
      ((x, .phi n) ∉ table ∧ (withPhis table n env).get? x = env.get? x) := by
  have hmap : withPhis table n env =
      ((barePhis table n).map fun p => (p.origin, p.result)).foldl
        (fun m e => m.insert e.1 e.2) env := by
    rw [List.foldl_map]
    rfl
  rw [hmap]
  rcases SortedMap.get?_foldl_insert ((barePhis table n).map fun p => (p.origin, p.result)) env x
    with ⟨id, hid, hget⟩ | ⟨hnone, hget⟩
  · obtain ⟨phi, hphi, heq⟩ := List.mem_map.1 hid
    cases heq
    exact .inl ⟨phi.result, (mem_barePhis.1 hphi).1, hget⟩
  · refine .inr ⟨fun hmem => ?_, hget⟩
    obtain ⟨id, hid⟩ := List.getElem?_of_mem hmem
    exact hnone id (List.mem_map.2 ⟨⟨id, x, []⟩, mem_barePhis.2 ⟨hid, rfl⟩, rfl⟩)

theorem Names.withPhis (h : Names c table env) (n : NodeId) :
    Names c table (withPhis table n env) where
  own := by
    intro x id hx
    rcases get?_withPhis table n env x with ⟨k, hk, hget⟩ | ⟨-, hget⟩
    · rw [hx] at hget
      cases hget
      exact ⟨.phi n, hk⟩
    · exact h.own (hget ▸ hx)
  total := by
    intro x hx
    rcases get?_withPhis table n env x with ⟨k, -, hget⟩ | ⟨-, hget⟩
    · exact ⟨k, hget⟩
    · rw [hget]
      exact h.total hx

/-! ## Versions along the instructions -/

theorem renameCode_cons (i : Instruction) :
    renameCode table n k env (i :: code) =
      (⟨i, i.op.defined.bind fun x => table.idxOf? (x, .instruction n k),
          i.op.used.filterMap env.get?⟩ ::
          (renameCode table n (k + 1) (behind table n k env i) code).1,
        (renameCode table n (k + 1) (behind table n k env i) code).2) := rfl

theorem behind_of_undefined {i : Instruction} (h : i.op.defined = none) :
    behind table n k env i = env := by
  simp only [behind, h]

theorem behind_of_defined {i : Instruction} (hx : i.op.defined = some x)
    (hid : table.idxOf? (x, .instruction n k) = some id) :
    behind table n k env i = env.insert x id := by
  simp only [behind, hx, Option.bind_some, hid]

theorem get?_behind {i : Instruction} (h : i.op.defined ≠ some x) :
    (behind table n k env i).get? x = env.get? x := by
  unfold behind
  split
  · next y id hy _ =>
    have hne : x ≠ y := fun hxy => h (hxy ▸ hy)
    rw [SortedMap.get?_insert, if_neg hne]
  · rfl

theorem Names.behind (h : Names c table env) (i : Instruction) :
    Names c table (behind table n k env i) := by
  unfold Ssa.behind
  split
  · next y id hy hid =>
    rw [hy, Option.bind_some] at hid
    exact h.insert (getElem?_of_idxOf? hid)
  · exact h

theorem Names.renameCode (h : Names c table env) :
    Names c table (renameCode table n k env code).2 := by
  induction code generalizing k env with
  | nil => exact h
  | cons i rest ih =>
      rw [renameCode_cons]
      exact ih (h.behind i)

theorem get?_renameCode (h : ∀ i ∈ code, i.op.defined ≠ some x) :
    (renameCode table n k env code).2.get? x = env.get? x := by
  induction code generalizing k env with
  | nil => rfl
  | cons i rest ih =>
      rw [renameCode_cons]
      show (Ssa.renameCode table n (k + 1) (Ssa.behind table n k env i) rest).2.get? x = _
      rw [ih fun j hj => h j (List.mem_cons_of_mem i hj), get?_behind (h i List.mem_cons_self)]

/-! ## Versions of the form -/

theorem leaving_eq (c : Cfg) (n : NodeId) :
    leaving c n =
      (renameCode (versions c) n 0 (withPhis (versions c) n (entering c n)) (c.codeOf n)).2 :=
  rfl

theorem names_entering (hc : c.Wired) (n : NodeId) : Names c (versions c) (entering c n) := by
  induction n using Dominators.idom?_induction c.view Cfg.entry with
  | node n ih =>
      cases hp : c.dominators.idom? n with
      | none =>
          rw [entering_of_root hp]
          exact names_startEnv
      | some p =>
          rw [entering_of_idom? hc hp, leaving_eq]
          exact ((ih p hp).withPhis p).renameCode

theorem names_leaving (hc : c.Wired) (n : NodeId) : Names c (versions c) (leaving c n) := by
  rw [leaving_eq]
  exact ((names_entering hc n).withPhis n).renameCode

/-! ## Versions along an edge -/

/-- A node that makes a new version of a variable has only nodes with a phi
node, and the exit, in its frontier. -/
private theorem phi_of_frontier (hc : c.Wired) (hx : x ∈ origins c) (hq : q < c.size)
    (hnew : (x, .phi q) ∈ versions c ∨ ∃ i ∈ c.codeOf q, i.op.defined = some x)
    (hn : n ∈ c.dominators.frontier q) (hexit : n ≠ Cfg.exit) :
    (x, .phi n) ∈ versions c := by
  have hiterated : n ∈ c.dominators.iteratedFrontier (defBlocks c x) := by
    rcases hnew with hphi | ⟨i, hi, hdef⟩
    · have hblock := (mem_table.1 hphi).2
      exact Dominators.mem_iteratedFrontier_of_mem hc.linked (List.mem_filter.1 hblock).1 hn
    · refine Dominators.mem_iteratedFrontier_of_def hc.linked ?_ hq hn
      refine List.mem_append_left _ (List.mem_filter.2 ⟨List.mem_range.2 hq, ?_⟩)
      exact List.any_eq_true.2 ⟨i, hi, by simp [hdef]⟩
  exact mem_table.2 ⟨hx, List.mem_filter.2 ⟨hiterated, by simpa using hexit⟩⟩

/-- A node that makes no new version of a variable passes it on. -/
private theorem leaving_eq_entering (hphi : (x, .phi q) ∉ versions c)
    (hdef : ∀ i ∈ c.codeOf q, i.op.defined ≠ some x) :
    (leaving c q).get? x = (entering c q).get? x := by
  rw [leaving_eq, get?_renameCode hdef]
  rcases get?_withPhis (versions c) q (entering c q) x with ⟨id, hid, -⟩ | ⟨-, hget⟩
  · exact absurd (List.mem_of_getElem? hid) hphi
  · exact hget

/-- On the way up from a predecessor to the parent of a node without a phi
node, a variable keeps its version. -/
private theorem leaving_eq_parent (hc : c.Wired) (hx : x ∈ origins c)
    (hreach : c.view.Reaches Cfg.entry p) (hedge : n ∈ c.view.succ p) (hexit : n ≠ Cfg.exit)
    (hphi : (x, .phi n) ∉ versions c) {parent : NodeId}
    (hparent : c.view.Closest Cfg.entry parent n) (hqp : c.view.Dominates Cfg.entry q p)
    (hpq : c.view.Dominates Cfg.entry parent q) :
    (leaving c q).get? x = (leaving c parent).get? x := by
  have hlinked := hc.linked
  have hentry := hc.entry_lt
  induction q using Dominators.idom?_induction c.view Cfg.entry with
  | node q ih =>
      by_cases hsame : q = parent
      · rw [hsame]
      · have hreachq := hqp.reaches hreach
        have hreachn := hreach.step hedge
        have hroot : q ≠ Cfg.entry := by
          intro h
          rw [h] at hpq hsame
          exact hsame hpq.eq_root.symm
        obtain ⟨up, hup⟩ := Dominators.exists_idom? hlinked hentry hreachq hroot
        have hclosest := Dominators.idom?_closest hlinked hentry hreachq hup
        have hih := ih up hup (hclosest.dominates.trans hqp)
          (hclosest.least hpq fun h => hsame h.symm)
        -- Nothing lies strictly between the parent and the node.
        have hnot : ¬ (q ≠ n ∧ c.dominators.dominates q n = true) := by
          rintro ⟨hne, hdom⟩
          have hqn := (Dominators.dominates_iff hlinked hentry hreachn).1 hdom
          exact hsame ((hparent.least hqn hne).antisymm hpq (hparent.dominates.reaches hreachn))
        have hfrontier : n ∈ c.dominators.frontier q :=
          (Dominators.mem_frontier hlinked).2
            ⟨⟨p, hedge, (Dominators.dominates_iff hlinked hentry hreach).2 hqp⟩, hnot⟩
        have hlt := hreachq.lt_size hlinked hentry
        have hold : ∀ hnew, False := fun hnew =>
          hphi (phi_of_frontier hc hx hlt hnew hfrontier hexit)
        rw [leaving_eq_entering (fun h => hold (.inl h))
          (fun i hi hdef => hold (.inr ⟨i, hi, hdef⟩)), entering_of_idom? hc hup]
        exact hih

/-- **Without a phi node** a variable has the same version at the end of every
predecessor and at the beginning of a node. -/
theorem entering_eq_leaving (hc : c.Wired) (hx : x ∈ origins c)
    (hreach : c.view.Reaches Cfg.entry p) (hedge : n ∈ c.view.succ p) (hexit : n ≠ Cfg.exit)
    (hphi : (x, .phi n) ∉ versions c) :
    (entering c n).get? x = (leaving c p).get? x := by
  have hreachn := hreach.step hedge
  have hroot : n ≠ Cfg.entry := by
    rintro rfl
    exact hc.not_to_entry hedge
  obtain ⟨parent, hparent⟩ := Dominators.exists_idom? hc.linked hc.entry_lt hreachn hroot
  have hclosest := Dominators.idom?_closest hc.linked hc.entry_lt hreachn hparent
  have hdom := hclosest.dominates.pred hclosest.ne hedge
  rw [entering_of_idom? hc hparent,
    leaving_eq_parent hc hx hreach hedge hexit hphi hclosest (.refl c.view Cfg.entry p) hdom]

end Ssa

end MethodFlow
