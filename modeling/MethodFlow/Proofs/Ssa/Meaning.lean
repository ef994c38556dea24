import MethodFlow.Proofs.Cfg.Acceptance
import MethodFlow.Proofs.Ssa.Construction

/-!
# Single assignment form keeps the meaning

Along a path the graph is run twice with tokens for values.  The run over
variables keeps a token for each variable; an instruction reads the tokens of
its operands and gives a fresh one to the variable that it defines.  The run
over versions keeps tokens for the versions instead: version 0 starts with the
token of its variable, on entering a block all phi nodes take the versions for
the block where control comes from, and a definition gives the same fresh
token to its version.

Both runs read the same tokens.  What carries this along a path is `Agree`:
the current version of every variable holds the token of the variable.  One
instruction keeps it, because a definition makes a version of its own
variable; an edge keeps it, because the parent in the dominator tree and the
predecessor have the same versions where there is no phi node
(`Ssa.entering_eq_leaving`).  The exit gets no phi nodes and needs none.

## Main results

* `Ssa.Agree.step`, `Ssa.agree_code`, `Ssa.agree_enter`: what one instruction,
  a block and an edge keep.
* `SsaForm.run_seen`: every instruction of every path reads in single
  assignment form what it reads in the graph.
-/

namespace MethodFlow

/-! ## The two runs -/

/-- A run over variables: the token of each variable, and the executed
instructions with the tokens that they have read. -/
structure VarState (T : Type) where
  env : Variable → T
  seen : List (Instruction × List T)

/-- Executes an instruction; a definition takes the token for the number of
instructions executed before it. -/
def VarState.step {T : Type} (fresh : Nat → T) (r : VarState T) (i : Instruction) :
    VarState T where
  env := match i.op.defined with
    | some x => fun y => if y = x then fresh r.seen.length else r.env y
    | none => r.env
  seen := r.seen ++ [(i, i.op.used.map r.env)]

/-- Runs the blocks of a path. -/
def Cfg.run {T : Type} (c : Cfg) (init : Variable → T) (fresh : Nat → T)
    (path : List NodeId) : VarState T :=
  path.foldl (fun r n => (c.codeOf n).foldl (VarState.step fresh) r) ⟨init, []⟩

/-- A run over versions: the node where control is, the tokens of the versions
that have one, and the executed instructions with what they have read. -/
structure SsaState (T : Type) where
  at? : Option NodeId
  env : SsaId → Option T
  seen : List (Instruction × List (Option T))

/-- Executes an instruction. -/
def SsaState.step {T : Type} (fresh : Nat → T) (s : SsaState T) (i : SsaInstruction) :
    SsaState T :=
  { s with
    env := match i.defined with
      | some id => fun k => if k = id then some (fresh s.seen.length) else s.env k
      | none => s.env
    seen := s.seen ++ [(i.instruction, i.uses.map s.env)] }

/-- The block of a node. -/
def SsaForm.blockOf (f : SsaForm) (n : NodeId) : SsaBlock := f.blocks.getD n default

/-- Enters a block: all its phi nodes take, at once, the tokens of the versions
for the node where control comes from. -/
def SsaState.enter {T : Type} (f : SsaForm) (s : SsaState T) (n : NodeId) : SsaState T :=
  { s with
    at? := some n
    env := match s.at? with
      | none => s.env
      | some p => fun id =>
        match (f.blockOf n).phis.find? fun phi => phi.result == id with
        | some phi => (phi.operandFrom? p).bind s.env
        | none => s.env id }

/-- Before the first block only versions 0 have a token. -/
def SsaForm.start {T : Type} (f : SsaForm) (init : Variable → T) : SsaState T where
  at? := none
  env id := (f.table[id]?).bind fun x => if x.version = 0 then some (init x.origin) else none
  seen := []

/-- Runs the blocks of a path in single assignment form. -/
def SsaForm.run {T : Type} (f : SsaForm) (init : Variable → T) (fresh : Nat → T)
    (path : List NodeId) : SsaState T :=
  path.foldl (fun s n => (f.blockOf n).code.foldl (SsaState.step fresh) (s.enter f n))
    (f.start init)

namespace Ssa

variable {T : Type} {c : Cfg} {d : Dominators} {table : List (Variable × DefSite)}
  {order : List NodeId} {code : List Instruction} {env : Env} {x y : Variable}
  {site : DefSite} {id k n p : Nat} {fresh : Nat → T} {init : Variable → T}
  {r : VarState T} {s : SsaState T} {path : List NodeId}

/-- The current version of every variable of the code holds the token of the
variable, and the same has been read so far. -/
structure Agree (c : Cfg) (env : Env) (r : VarState T) (s : SsaState T) : Prop where
  tokens : ∀ {x : Variable} {id : SsaId}, x ∈ origins c → env.get? x = some id →
    s.env id = some (r.env x)
  seen : s.seen = r.seen.map fun e => (e.1, e.2.map some)

/-! ## One instruction -/

/-- The versions of the operands hold the tokens of the operands. -/
private theorem Agree.uses (h : Agree c env r s) (hnames : Names c table env)
    (used : List Variable) (hused : ∀ x ∈ used, x ∈ origins c) :
    (used.filterMap env.get?).map s.env = (used.map r.env).map some := by
  rw [List.map_map]
  exact hnames.map_uses hused fun x hx _ hid => h.tokens (hused x hx) hid

/-- An instruction and its renamed form keep the agreement. -/
theorem Agree.step (h : Agree c env r s) (fresh : Nat → T) (hnames : Names c table env)
    {i : Instruction}
    (hused : ∀ x ∈ i.op.used, x ∈ origins c)
    (hdef : ∀ x, i.op.defined = some x → (x, .instruction n k) ∈ table) :
    Agree c (behind table n k env i) (r.step fresh i)
      (s.step fresh ⟨i, i.op.defined.bind fun x => table.idxOf? (x, .instruction n k),
        i.op.used.filterMap env.get?⟩) where
  seen := by
    show s.seen ++ _ = (r.seen ++ _).map _
    rw [h.seen, List.map_append, h.uses hnames i.op.used hused]
    rfl
  tokens := by
    have hlen : s.seen.length = r.seen.length := by rw [h.seen, List.length_map]
    intro y k' hy hget
    cases hx : i.op.defined with
    | none =>
        rw [behind_of_undefined hx] at hget
        simp only [SsaState.step, VarState.step, hx, Option.bind_none]
        exact h.tokens hy hget
    | some x =>
        obtain ⟨id, hid⟩ := Option.isSome_iff_exists.1 (List.isSome_idxOf?.2 (hdef x hx))
        have hown := getElem?_of_idxOf? hid
        rw [behind_of_defined hx hid, SortedMap.get?_insert] at hget
        simp only [SsaState.step, VarState.step, hx, Option.bind_some, hid, hlen]
        by_cases hyx : y = x
        · rw [if_pos hyx] at hget
          cases hget
          rw [if_pos rfl, if_pos hyx]
        · rw [if_neg hyx] at hget
          -- The version of another variable is another version.
          have hne : k' ≠ id := by
            rintro rfl
            obtain ⟨site, hsite⟩ := hnames.own hget
            rw [hown] at hsite
            cases hsite
            exact hyx rfl
          rw [if_neg hyx, if_neg hne]
          exact h.tokens hy hget

theorem agree_code (hn : n < c.size) (hnode : n ∈ renameOrder c c.dominators)
    (hcode : (c.codeOf n).drop k = code) (h : Agree c env r s)
    (hnames : Names c (versions c) env) :
    Agree c (renameCode (versions c) n k env code).2 (code.foldl (VarState.step fresh) r)
      ((renameCode (versions c) n k env code).1.foldl (SsaState.step fresh) s) := by
  induction code generalizing k env r s with
  | nil => exact h
  | cons i rest ih =>
      have hi : (c.codeOf n)[k]? = some i := by
        rw [← List.head?_drop, hcode]
        rfl
      have hmem := List.mem_of_getElem? hi
      have hrest : (c.codeOf n).drop (k + 1) = rest := by
        rw [← List.tail_drop, hcode]
        rfl
      have hstep := h.step fresh hnames (fun x hx => mem_origins_of_used hn hmem hx)
        (fun x hx => mem_table.2 ⟨hnode, i, hi, hx⟩)
      rw [renameCode_cons]
      exact ih hrest hstep (hnames.behind i)

/-! ## The blocks of the form -/

theorem blockOf_ofCfg (hc : c.Wired) (hn : n < c.view.size) :
    (SsaForm.ofCfg c).blockOf n = nodeBlock c n := by
  rw [SsaForm.blockOf, List.getD_eq_getElem?_getD, (getElem?_blocks hc).2 ⟨hn, rfl⟩,
    Option.getD_some]

/-- Reading off the operand for a predecessor. -/
private theorem find?_operands (value : NodeId → Option SsaId) (sources : List NodeId)
    (p : NodeId) :
    ((sources.filterMap fun q => (value q).map fun id => (⟨id, q⟩ : PhiOperand)).find?
        fun o => o.predecessor == p).map PhiOperand.value =
      if p ∈ sources then value p else none := by
  induction sources with
  | nil => rfl
  | cons q rest ih =>
      by_cases hq : q = p
      · subst hq
        cases hvalue : value q with
        | none =>
            rw [hvalue] at ih
            rw [List.filterMap_cons_none (by rw [hvalue]; rfl), ih]
            simp
        | some id =>
            rw [List.filterMap_cons_some (by rw [hvalue]; rfl)]
            simp
      · have hmem : p ∈ q :: rest ↔ p ∈ rest := by
          rw [List.mem_cons, or_iff_right fun h => hq h.symm]
        simp only [hmem]
        rw [← ih]
        cases hvalue : value q with
        | none => rw [List.filterMap_cons_none (by rw [hvalue]; rfl)]
        | some id =>
            rw [List.filterMap_cons_some (by rw [hvalue]; rfl),
              List.find?_cons_of_neg (by simpa using hq)]

theorem result_of_mem_phis {phi : Phi} (h : phi ∈ (nodeBlock c n).phis) :
    (versions c)[phi.result]? = some (phi.origin, .phi n) := by
  obtain ⟨bare, hbare, rfl⟩ := List.mem_map.1 h
  exact (mem_barePhis.1 hbare).1

/-- A phi node takes from a predecessor the version that is current at its
end. -/
theorem phi_of_mem_phis (hc : c.Wired) (hedge : n ∈ c.view.succ p) {phi : Phi}
    (h : phi ∈ (nodeBlock c n).phis) :
    (versions c)[phi.result]? = some (phi.origin, .phi n) ∧
      phi.operandFrom? p = (leaving c p).get? phi.origin := by
  have hp := hc.linked.source_lt hedge
  refine ⟨result_of_mem_phis h, ?_⟩
  obtain ⟨bare, -, rfl⟩ := List.mem_map.1 h
  have hsource : p ∈ (renameOrder c c.dominators).filter fun p => (c.view.succ p).contains n :=
    List.mem_filter.2 ⟨mem_renameOrder hc hp, List.contains_iff_mem.2 hedge⟩
  refine (find?_operands _ _ p).trans ?_
  rw [if_pos hsource]

/-! ## One edge -/

/-- Entering a block gives the version of a phi node the token of the version
that is current at the end of the predecessor. -/
private theorem env_enter_phi (hc : c.Wired) (hedge : n ∈ c.view.succ p) (hat : s.at? = some p)
    (hid : (versions c)[id]? = some (x, .phi n)) :
    (s.enter (SsaForm.ofCfg c) n).env id = ((leaving c p).get? x).bind s.env := by
  have hblock := blockOf_ofCfg hc (hc.linked.target_lt hedge)
  have hbare : (⟨id, x, []⟩ : Phi) ∈ barePhis (versions c) n := mem_barePhis.2 ⟨hid, rfl⟩
  simp only [SsaState.enter, hat, hblock]
  cases hfind : (nodeBlock c n).phis.find? fun phi => phi.result == id with
  | none =>
      have hnot := List.find?_eq_none.1 hfind _ (List.mem_map.2 ⟨_, hbare, rfl⟩)
      exact absurd (beq_self_eq_true id) hnot
  | some phi =>
      have hphi := phi_of_mem_phis hc hedge (List.mem_of_find?_eq_some hfind)
      have hresult : phi.result = id := by simpa using List.find?_some hfind
      have hown := hphi.1
      rw [hresult, hid] at hown
      cases hown
      show (phi.operandFrom? p).bind s.env = _
      rw [hphi.2]

/-- Entering a block leaves other versions alone. -/
private theorem env_enter_other (hc : c.Wired) (hedge : n ∈ c.view.succ p)
    (hat : s.at? = some p) (hid : ∀ x, (versions c)[id]? ≠ some (x, .phi n)) :
    (s.enter (SsaForm.ofCfg c) n).env id = s.env id := by
  have hblock := blockOf_ofCfg hc (hc.linked.target_lt hedge)
  have hfind : (nodeBlock c n).phis.find? (fun phi => phi.result == id) = none := by
    rw [List.find?_eq_none]
    intro phi hphi hresult
    have hown := (phi_of_mem_phis hc hedge hphi).1
    rw [beq_iff_eq.1 hresult] at hown
    exact hid phi.origin hown
  simp only [SsaState.enter, hat, hblock, hfind]

/-- Entering a block along an edge keeps the agreement: the phi nodes take the
versions of their variables, and the other variables keep theirs. -/
theorem agree_enter (hc : c.Wired) (hreach : c.view.Reaches Cfg.entry p)
    (hedge : n ∈ c.view.succ p) (hexit : n ≠ Cfg.exit) (hat : s.at? = some p)
    (h : Agree c (leaving c p) r s) :
    Agree c (withPhis (versions c) n (entering c n)) r (s.enter (SsaForm.ofCfg c) n) where
  seen := h.seen
  tokens := by
    intro x id hx hget
    rcases get?_withPhis (versions c) n (entering c n) x with ⟨k, hk, hphi⟩ | ⟨hnone, hsame⟩
    · rw [hget] at hphi
      cases hphi
      obtain ⟨old, hold⟩ := (names_leaving hc p).total hx
      rw [env_enter_phi hc hedge hat hk, hold]
      exact h.tokens hx hold
    · rw [hsame] at hget
      have hother : ∀ y, (versions c)[id]? ≠ some (y, .phi n) := by
        intro y hy
        obtain ⟨site, hsite⟩ := (names_entering hc n).own hget
        rw [hy] at hsite
        cases hsite
        exact hnone (List.mem_of_getElem? hy)
      rw [env_enter_other hc hedge hat hother]
      rw [entering_eq_leaving hc hx hreach hedge hexit hnone] at hget
      exact h.tokens hx hget

/-! ## The start -/

theorem agree_start (hc : c.Wired) (init : Variable → T) :
    Agree c (withPhis (versions c) Cfg.entry (entering c Cfg.entry)) ⟨init, []⟩
      (((SsaForm.ofCfg c).start init).enter (SsaForm.ofCfg c) Cfg.entry) where
  seen := rfl
  tokens := by
    intro x id hx hget
    have hroot : c.dominators.idom? Cfg.entry = none :=
      Dominators.idom?_root hc.linked hc.entry_lt
    rcases get?_withPhis (versions c) Cfg.entry (entering c Cfg.entry) x with
      ⟨k, hk, -⟩ | ⟨-, hsame⟩
    · -- Nothing leads to the entry, so it has no phi nodes.
      obtain ⟨p, hedge⟩ := exists_edge_of_phi hc (List.mem_of_getElem? hk)
      exact absurd hedge hc.not_to_entry
    · rw [hsame, entering_of_root hroot] at hget
      rcases get?_startEnv (versions c) x with ⟨k, hk, hstart⟩ | ⟨-, hstart⟩
      · rw [hget] at hstart
        cases hstart
        have hzero : versionOf (versions c) id x = 0 := versionOf_entry hk
        obtain ⟨uses, htable⟩ := exists_table hc hk
        simp only [SsaState.enter, SsaForm.start, htable, Option.bind_some, hzero, if_true]
      · rw [hget] at hstart
        cases hstart

/-! ## A path -/

private theorem at?_foldl_step (code : List SsaInstruction) (s : SsaState T) :
    (code.foldl (SsaState.step fresh) s).at? = s.at? := by
  induction code generalizing s with
  | nil => rfl
  | cons i rest ih => exact ih (s.step fresh i)

theorem agree_block (hc : c.Wired) (hn : n < c.view.size) (fresh : Nat → T)
    (h : Agree c (withPhis (versions c) n (entering c n)) r s) :
    Agree c (leaving c n) ((c.codeOf n).foldl (VarState.step fresh) r)
      (((SsaForm.ofCfg c).blockOf n).code.foldl (SsaState.step fresh) s) := by
  rw [blockOf_ofCfg hc hn, leaving_eq]
  exact agree_code hn (mem_renameOrder hc hn) List.drop_zero h
    ((names_entering hc n).withPhis n)

/-- The runs along a path agree at its end, as long as it is not the exit. -/
theorem agree_path (hc : c.Wired) (hpath : c.view.Path Cfg.entry n path)
    (init : Variable → T) (fresh : Nat → T) :
    ((SsaForm.ofCfg c).run init fresh path).at? = some n ∧
      ((SsaForm.ofCfg c).run init fresh path).seen =
        (c.run init fresh path).seen.map (fun e => (e.1, e.2.map some)) ∧
      (n ≠ Cfg.exit → Agree c (leaving c n) (c.run init fresh path)
        ((SsaForm.ofCfg c).run init fresh path)) := by
  induction hpath with
  | start =>
      have hagree := agree_block hc hc.entry_lt fresh (agree_start hc init)
      exact ⟨at?_foldl_step _ _, hagree.seen, fun _ => hagree⟩
  | @step p n path hpath hedge ih =>
      obtain ⟨hat, hseen, hagree⟩ := ih
      have hp : p ≠ Cfg.exit := by
        rintro rfl
        exact hc.not_from_exit hedge
      have hn := hc.linked.target_lt hedge
      simp only [SsaForm.run, Cfg.run, List.foldl_append, List.foldl_cons, List.foldl_nil]
      by_cases hexit : n = Cfg.exit
      · -- The exit holds no instructions: nothing more is read.
        subst hexit
        have hcode : ((SsaForm.ofCfg c).blockOf Cfg.exit).code = [] := by
          rw [blockOf_ofCfg hc hn, nodeBlock, nodeCode, hc.code_exit]
          rfl
        rw [hcode, hc.code_exit]
        exact ⟨rfl, hseen, fun h => absurd rfl h⟩
      · have hentered := agree_enter hc ⟨path, hpath⟩ hedge hexit hat (hagree hp)
        have hleft := agree_block hc hn fresh hentered
        exact ⟨at?_foldl_step _ _, hleft.seen, fun _ => hleft⟩

end Ssa

/-- **Single assignment form keeps the meaning.**  Along every path from the
entry, with any tokens for the variables at the start and for the definitions,
the instructions executed in single assignment form are those of the graph,
and each reads the same tokens: one for each operand, none of them missing. -/
theorem SsaForm.run_seen {T : Type} {method : Option MethodRef} {code : List Instruction}
    {regions : List Region} {config : Config} {c : Cfg} {n : NodeId} {path : List NodeId}
    (h : Cfg.build method code regions config = .ok c)
    (hpath : c.view.Path Cfg.entry n path) (init : Variable → T) (fresh : Nat → T) :
    ((SsaForm.ofCfg c).run init fresh path).seen =
      (c.run init fresh path).seen.map fun e => (e.1, e.2.map some) :=
  (Ssa.agree_path (Cfg.build_wired h) hpath init fresh).2.1

/-- A loop that reads and writes one variable. -/
def rewriting (x : Variable) : List Instruction :=
  [⟨0, .loadConstant x⟩, ⟨1, .branch .conditional 4⟩, ⟨2, .copy x x⟩,
    ⟨3, .branch .unconditional 1⟩, ⟨4, .return (some x)⟩]

/-- After one round of the loop, what is returned is the token of the copy. -/
theorem SsaForm.run_seen_rewriting :
    ∃ c, Cfg.build none (rewriting ⟨"x", none, .local⟩) [] .default = .ok c ∧
      c.view.Path Cfg.entry 3 [0, 2, 5, 4, 5, 3] ∧
      ((SsaForm.ofCfg c).run (fun _ => 100) id [0, 2, 5, 4, 5, 3]).seen.getLast? =
        some (⟨4, .return (some ⟨"x", none, .local⟩)⟩, [some 2]) := by
  have hbuild : Cfg.build none (rewriting ⟨"x", none, .local⟩) [] .default =
      .ok ⟨none, (Cfg.Layout.of (rewriting ⟨"x", none, .local⟩) []).graph .default⟩ :=
    Cfg.build_eq_ok_iff.2 ⟨by decide, rfl⟩
  refine ⟨_, hbuild, ?_⟩
  have hpath : (⟨none, (Cfg.Layout.of (rewriting ⟨"x", none, .local⟩) []).graph .default⟩ :
      Cfg).view.Path Cfg.entry 3 [0, 2, 5, 4, 5, 3] :=
    .step (.step (.step (.step (.step .start (by decide)) (by decide)) (by decide))
      (by decide)) (by decide)
  refine ⟨hpath, ?_⟩
  rw [run_seen hbuild hpath]
  decide +kernel

end MethodFlow
