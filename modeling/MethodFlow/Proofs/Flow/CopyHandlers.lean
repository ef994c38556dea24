import MethodFlow.Proofs.Cfg.Handlers
import MethodFlow.Proofs.Flow.CopyPrecision

/-!
# Copies at handlers

An exception can leave a protected block in front of any of its instructions,
but the edge to the handler leaves the block as a whole, and what flows along
it is the fact behind the last instruction.  A copy that is in force where the
block is left holds at the handler, and so does a copy that the block has
found and kept.  A copy that the block still has to make need not hold, and
the fact of the handler may contain it (`Copies.handler_ahead_guardedCall`).

Whether it happens to hold all the same depends on where the values come from.
Trace each variable back through the copies that were executed, either to the
value that some variable had at the start or to the instruction that wrote the
value.  Two variables with the same origin have the same value.  The origins
are themselves a possible run, in which every instruction writes a value not
seen before, so two variables with different origins can differ.

## Main results

* `Copies.origin_eq_iff`: two variables have the same origin just if they have
  the same value in every execution.
* `Copies.handler_sound`: which copies at a handler hold where the protected
  block is left.
-/

namespace MethodFlow

namespace Copies

variable {V : Type} {x y : Variable} {i : Instruction} {code : List Instruction}

/-! ## Where values come from -/

/-- Where the value of a variable comes from. -/
inductive Origin where
  /-- A variable had it at the start. -/
  | start (x : Variable)
  /-- An instruction wrote it, given by its place in the code. -/
  | written (place : Nat)
  deriving DecidableEq

/-- A copy hands on an origin.  Any other write makes a new one. -/
def trace (place : Nat) (origins : Variable → Origin) (i : Instruction) : Variable → Origin :=
  match i.op with
  | .copy dest source => Function.update origins dest (origins source)
  | op =>
    match op.defined with
    | some dest => Function.update origins dest (.written place)
    | none => origins

/-- The origins behind a piece of code whose first instruction has the given
place. -/
def traceFrom : Nat → (Variable → Origin) → List Instruction → Variable → Origin
  | _, origins, [] => origins
  | place, origins, i :: code => traceFrom (place + 1) (trace place origins i) code

/-- Where the value of a variable comes from behind a piece of code. -/
def origin (code : List Instruction) : Variable → Origin := traceFrom 0 .start code

theorem trace_of_copy {dest source : Variable} (hop : i.op = .copy dest source) (place : Nat)
    (origins : Variable → Origin) :
    trace place origins i = Function.update origins dest (origins source) := by
  simp only [trace, hop]

theorem trace_of_not_copy (hcopy : ∀ dest source, i.op ≠ .copy dest source) (place : Nat)
    (origins : Variable → Origin) :
    trace place origins i = match i.op.defined with
      | some dest => Function.update origins dest (.written place)
      | none => origins := by
  unfold trace
  split
  · next dest source hop => exact absurd hop (hcopy dest source)
  · rfl

theorem moves_trace (place : Nat) (origins : Variable → Origin) (i : Instruction) :
    Moves i origins (trace place origins i) := by
  unfold Moves
  split
  · next dest source hop => exact trace_of_copy hop place origins
  · next hcopy =>
    rw [trace_of_not_copy hcopy]
    cases i.op.defined with
    | some dest => exact ⟨_, rfl⟩
    | none => rfl

/-- To trace the origins is to execute the code, with the origins for
values. -/
theorem execution_traceFrom (place : Nat) (origins : Variable → Origin)
    (code : List Instruction) : Execution Moves code origins (traceFrom place origins code) := by
  induction code generalizing place origins with
  | nil => exact .nil
  | cons i code ih => exact .cons (moves_trace place origins i) (ih (place + 1) _)

/-- A step of an execution is read off the origins behind it. -/
private theorem exists_value_trace {place : Nat} {origins : Variable → Origin}
    {value : Origin → V} {env env' : Variable → V} (henv : ∀ x, env x = value (origins x))
    (hfresh : ∀ x k, origins x = .written k → k < place) (hmoves : Moves i env env') :
    ∃ value' : Origin → V, (∀ x, env' x = value' (trace place origins i x)) ∧
      ∀ x k, trace place origins i x = .written k → k < place + 1 := by
  unfold Moves at hmoves
  split at hmoves
  · next dest source hop =>
    rw [trace_of_copy hop]
    refine ⟨value, fun x => ?_, fun x k hk => ?_⟩
    · rw [hmoves]
      by_cases hx : x = dest
      · rw [hx, Function.update_self, Function.update_self, henv]
      · rw [Function.update_of_ne hx, Function.update_of_ne hx, henv]
    · by_cases hx : x = dest
      · rw [hx, Function.update_self] at hk
        exact Nat.lt_succ_of_lt (hfresh _ _ hk)
      · rw [Function.update_of_ne hx] at hk
        exact Nat.lt_succ_of_lt (hfresh _ _ hk)
  · next hcopy =>
    rw [trace_of_not_copy hcopy]
    cases hdefined : i.op.defined with
    | some dest =>
        rw [hdefined] at hmoves
        dsimp only at hmoves ⊢
        obtain ⟨written, rfl⟩ := hmoves
        -- No variable has the new origin yet, so it may stand for any value.
        refine ⟨Function.update value (.written place) written, fun x => ?_, fun x k hk => ?_⟩
        · by_cases hx : x = dest
          · rw [hx, Function.update_self, Function.update_self, Function.update_self]
          · have hne : origins x ≠ .written place := fun heq =>
              absurd (hfresh x place heq) (Nat.lt_irrefl place)
            rw [Function.update_of_ne hx, Function.update_of_ne hx, Function.update_of_ne hne,
              henv]
        · by_cases hx : x = dest
          · rw [hx, Function.update_self, Origin.written.injEq] at hk
            omega
          · rw [Function.update_of_ne hx] at hk
            exact Nat.lt_succ_of_lt (hfresh _ _ hk)
    | none =>
        rw [hdefined] at hmoves
        rw [hmoves]
        exact ⟨value, henv, fun x k hk => Nat.lt_succ_of_lt (hfresh x k hk)⟩

/-- Every execution is read off the origins. -/
private theorem exists_value_traceFrom {place : Nat} {origins : Variable → Origin}
    {value : Origin → V} {env env' : Variable → V} (henv : ∀ x, env x = value (origins x))
    (hfresh : ∀ x k, origins x = .written k → k < place) (hrun : Execution Moves code env env') :
    ∃ value' : Origin → V, ∀ x, env' x = value' (traceFrom place origins code x) := by
  induction hrun generalizing place origins value with
  | nil => exact ⟨value, henv⟩
  | cons hstep _ ih =>
      obtain ⟨value', henv', hfresh'⟩ := exists_value_trace henv hfresh hstep
      exact ih henv' hfresh'

/-- **Origins decide.**  Behind a piece of code two variables have the same
origin just if no execution gives them different values. -/
theorem origin_eq_iff : origin code x = origin code y ↔
    ∀ (V : Type) (start env : Variable → V), Execution Moves code start env → env x = env y := by
  refine ⟨fun horigin V start env hrun => ?_, fun hall => ?_⟩
  · let value : Origin → V
      | .start z => start z
      | .written _ => start x
    have hstart : ∀ z, start z = value (.start z) := fun _ => rfl
    have hfresh : ∀ z k, Origin.start z = .written k → k < 0 := fun _ _ h => nomatch h
    obtain ⟨value', henv⟩ := exists_value_traceFrom hstart hfresh hrun
    rw [henv, henv]
    exact congrArg value' horigin
  · exact hall Origin .start _ (execution_traceFrom 0 .start code)

/-- The two variables of a copy in force have the same origin. -/
theorem InForce.origin_eq (h : InForce code x y) : origin code x = origin code y :=
  origin_eq_iff.2 fun _ start _ hrun =>
    ((Holds.empty start).block hrun) x y (source?_foldl_apply_empty.2 h)

/-! ## Handlers -/

variable {g : Cfg} {method : Option MethodRef} {regions : List Region} {config config' : Config}
  {s : Solution Unit Copies} {r : Region} {m : NodeId} {path : List NodeId}
  {front back : List Instruction}

/-- **Copies at handlers.**  Follow a path from the entry and stop in the
middle of its last block, in front of an instruction that a region protects.
Exactly one block begins where the handler does.  A copy of the fact there
holds in every execution that stops at this point, just if its two variables
have the same origin behind the instructions that were executed.  This is so
when the copy is in force at this point, and also when the block does not still
have to make it, at the instruction where it was stopped or behind it. -/
theorem handler_sound (hbuild : Cfg.build method code regions config = .ok g)
    (hedges : config.exceptionalEdges = true)
    (h : (analysis g).solve g config' () = .ok s) (hr : r ∈ regions)
    (hcode : g.codeOf m = front ++ i :: back) (hprotects : r.protects i.offset = true)
    (hpath : g.view.Path Cfg.entry m path) :
    ∃ n facts, (∀ k, g.start? k = some r.handlerStart ↔ k = n) ∧ s.input? n = some facts ∧
      ∀ dest source, facts.source? dest = some source →
        ((∀ (V : Type) (start env : Variable → V),
            Execution Moves (path.dropLast.flatMap g.codeOf ++ front) start env →
              env dest = env source) ↔
          origin (path.dropLast.flatMap g.codeOf ++ front) dest =
            origin (path.dropLast.flatMap g.codeOf ++ front) source) ∧
        (InForce (path.dropLast.flatMap g.codeOf ++ front) dest source ∨
            (∀ j ∈ i :: back, j.op ≠ .copy dest source) →
          origin (path.dropLast.flatMap g.codeOf ++ front) dest =
            origin (path.dropLast.flatMap g.codeOf ++ front) source) := by
  have hwired := Cfg.build_wired hbuild
  have hentry : r.handlerStart ∈ r.entries := by
    unfold Region.entries
    split <;> simp
  have hi : i ∈ g.codeOf m := by
    rw [hcode]
    exact List.mem_append_right _ List.mem_cons_self
  obtain ⟨n, hbegins, hedge⟩ :=
    Cfg.handler_of_protected hbuild hedges hr hi hprotects hentry
  obtain ⟨ins, outs, hsolved⟩ := exists_solved hwired.built hwired.exit_lt h
  refine ⟨n, ins n, hbegins, hsolved.input n (hwired.linked.target_lt hedge), ?_⟩
  refine fun dest source hsource => ⟨origin_eq_iff.symm, ?_⟩
  rintro (hforce | hahead)
  · exact hforce.origin_eq
  · refine origin_eq_iff.2 fun V start env hrun => ?_
    obtain ⟨before, hbefore, hfront⟩ := Execution.append_iff.1 hrun
    have hholds := (hsolved.holds_path hwired.built hpath hbefore).1.block hfront
    -- The handler knows no more than the end of the block does.
    have hout := hsolved.thins hwired.built hedge dest source hsource
    rw [hsolved.outs_eq (hwired.linked.source_lt hedge), hcode, List.foldl_append,
      source?_foldl_apply_iff] at hout
    rcases hout with ⟨_, j, _, hsplit, hop, -⟩ | ⟨hmade, -⟩
    · refine absurd hop (hahead j ?_)
      rw [hsplit]
      exact List.mem_append_right _ List.mem_cons_self
    · exact hholds dest source hmade

/-- A protected call between two copies of `a`, one to `b` and one to the
given variable, with a handler that returns the latter. -/
def guardedCall (x : String) : List Instruction :=
  [⟨0, .copy ⟨"b", none, .local⟩ ⟨"a", none, .local⟩⟩,
    ⟨1, .call none ⟨"T", "F", "()"⟩ [] .static⟩,
    ⟨2, .copy ⟨x, none, .local⟩ ⟨"a", none, .local⟩⟩, ⟨3, .return none⟩,
    ⟨4, .return (some ⟨x, none, .local⟩)⟩]

/-- The first three instructions are protected, and any exception is
caught. -/
def guardedRegion : Region := ⟨0, 3, 4, 5, .catchAll⟩

/-- The graph of the call and its handler. -/
def guardedGraph (x : String) : Cfg :=
  ⟨none, (Cfg.Layout.of (guardedCall x) [guardedRegion]).graph .default⟩

/-- Wherever the second copy goes, the handler takes its destination for a copy
of `a`. -/
private theorem facts_guardedCall {x : String}
    (hresult : ((analysis (guardedGraph x)).solve (guardedGraph x) .default ()).toOption.any
      (fun s => (s.input? 4).any fun facts =>
        facts.source? ⟨x, none, .local⟩ == some ⟨"a", none, .local⟩) = true) :
    ∃ s facts, (analysis (guardedGraph x)).solve (guardedGraph x) .default () = .ok s ∧
      s.input? 4 = some facts ∧
      facts.source? ⟨x, none, .local⟩ = some ⟨"a", none, .local⟩ := by
  cases hsolve : (analysis (guardedGraph x)).solve (guardedGraph x) .default () with
  | error e =>
      rw [hsolve] at hresult
      exact absurd hresult Bool.false_ne_true
  | ok s =>
      rw [hsolve] at hresult
      simp only [Except.toOption, Option.any_some, Option.any_eq_true, beq_iff_eq] at hresult
      obtain ⟨facts, hinput, hsource⟩ := hresult
      exact ⟨s, facts, rfl, hinput, hsource⟩

/-- When the call raises an exception, `b` is a copy of `a`, as the handler
thinks, although the block would have made this copy again. -/
theorem handler_sound_guardedCall :
    InForce ((guardedCall "b").take 1) ⟨"b", none, .local⟩ ⟨"a", none, .local⟩ ∧
      (guardedCall "b")[2].op = .copy ⟨"b", none, .local⟩ ⟨"a", none, .local⟩ ∧
      ∃ s facts, (analysis (guardedGraph "b")).solve (guardedGraph "b") .default () = .ok s ∧
        s.input? 4 = some facts ∧
        facts.source? ⟨"b", none, .local⟩ = some ⟨"a", none, .local⟩ ∧
        ∀ (V : Type) (start env : Variable → V),
          Execution Moves ([0, 2].dropLast.flatMap (guardedGraph "b").codeOf ++
            (guardedCall "b").take 1) start env →
              env ⟨"b", none, .local⟩ = env ⟨"a", none, .local⟩ := by
  have hbuild : Cfg.build none (guardedCall "b") [guardedRegion] .default =
      .ok (guardedGraph "b") := Cfg.build_eq_ok_iff.2 ⟨by decide, rfl⟩
  have hcode : (guardedGraph "b").codeOf 2 =
      (guardedCall "b").take 1 ++ (guardedCall "b")[1] :: [(guardedCall "b")[2]] := by decide
  have hpath : (guardedGraph "b").view.Path Cfg.entry 2 [0, 2] := .step .start (by decide)
  have hforce : InForce ((guardedCall "b").take 1) ⟨"b", none, .local⟩ ⟨"a", none, .local⟩ := by
    decide +kernel
  obtain ⟨s, facts, hs, hinput, hsource⟩ := facts_guardedCall (x := "b") (by decide +kernel)
  obtain ⟨n, facts', hbegins, hinput', hcopies⟩ :=
    handler_sound hbuild rfl hs (List.mem_singleton_self _) hcode (by decide) hpath
  rw [← (hbegins 4).1 (by decide), hinput] at hinput'
  cases hinput'
  obtain ⟨hsame, hforced⟩ := hcopies _ _ hsource
  exact ⟨hforce, rfl, s, facts, hs, hinput, hsource, hsame.2 (hforced (.inl hforce))⟩

/-- **A handler can know of copies too early.**  When the call raises an
exception, `c` has not been copied from `a`, and the two differ; the handler
takes it for a copy all the same. -/
theorem handler_ahead_guardedCall :
    Cfg.build none (guardedCall "c") [guardedRegion] .default = .ok (guardedGraph "c") ∧
      (guardedGraph "c").codeOf 2 =
        (guardedCall "c").take 1 ++ (guardedCall "c")[1] :: [(guardedCall "c")[2]] ∧
      guardedRegion.protects (guardedCall "c")[1].offset = true ∧
      (guardedGraph "c").start? 4 = some guardedRegion.handlerStart ∧
      (guardedGraph "c").view.Path Cfg.entry 2 [0, 2] ∧
      ∃ s env, (analysis (guardedGraph "c")).solve (guardedGraph "c") .default () = .ok s ∧
        Execution Moves ([0, 2].dropLast.flatMap (guardedGraph "c").codeOf ++
            (guardedCall "c").take 1)
          (fun x => if x.name = "a" then 1 else 0) env ∧
        ∃ facts, s.input? 4 = some facts ∧
          facts.source? ⟨"c", none, .local⟩ = some ⟨"a", none, .local⟩ ∧
          env ⟨"c", none, .local⟩ ≠ env ⟨"a", none, .local⟩ := by
  obtain ⟨s, facts, hs, hinput, hsource⟩ := facts_guardedCall (x := "c") (by decide +kernel)
  exact ⟨Cfg.build_eq_ok_iff.2 ⟨by decide, rfl⟩, by decide, by decide, by decide,
    .step .start (by decide), s, _, hs, .cons rfl .nil, facts, hinput, hsource, by decide⟩

end Copies

end MethodFlow
