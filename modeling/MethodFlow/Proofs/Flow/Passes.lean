import Mathlib.Data.List.Basic
import Mathlib.Data.List.Induction
import Mathlib.Logic.Function.Basic
import MethodFlow.Flow.Liveness
import MethodFlow.Proofs.Cfg.Acceptance
import MethodFlow.Proofs.Graph.Order

/-!
# Passes of the dataflow solver

Bringing a node up to date reads only the facts that flow out of other nodes
so far, so a pass is a walk through partial assignments `NodeId → Option φ`.
The facts that flow in are written along the way, while later nodes of the
same pass may still change what flows out.  They fit together all the same in
a pass that changes nothing: every node of it has seen the same outgoing
facts.

This holds for analyses that are plain: the fact a transfer gives does not
depend on the state that it carries, and facts that count as the same are
equal.

## Main results

* `Analysis.updated_of_update`, `Analysis.update_of_computes`: what bringing
  a node up to date does, and when it succeeds.
* `Analysis.pass_settled`: after a pass that changes nothing, every node has
  the facts that its neighbours ask for.
* `Analysis.solve_error_of_returns`: passes that lead back to an earlier state
  never end.
* `Analysis.solve_solves`: a solved analysis solves the dataflow equations.
-/

namespace MethodFlow

variable {σ φ : Type}

/-! ## Facts at the nodes -/

namespace FlowFacts

/-- The fact that flows into a node, if there is one yet. -/
def in? (facts : FlowFacts φ) (n : NodeId) : Option φ := (facts.flowIn[n]?).join

/-- The fact that flows out of a node, if there is one yet. -/
def out? (facts : FlowFacts φ) (n : NodeId) : Option φ := (facts.flowOut[n]?).join

/-- There is room for a fact on both sides of each node. -/
structure Fits (facts : FlowFacts φ) (size : Nat) : Prop where
  flowIn : facts.flowIn.size = size
  flowOut : facts.flowOut.size = size

end FlowFacts

theorem join_setIfInBounds {slots : Array (Option φ)} {n : Nat} (hn : n < slots.size)
    (x : φ) (m : Nat) :
    ((slots.setIfInBounds n (some x))[m]?).join =
      if m = n then some x else (slots[m]?).join := by
  rw [Array.getElem?_setIfInBounds]
  by_cases hm : m = n
  · subst hm
    simp [hn]
  · simp [hm, Ne.symm hm]

namespace Analysis

variable {a : Analysis σ φ} {v : View} {s s' : State σ φ} {n : NodeId} {x y : φ}
  {size : Nat} {order : List NodeId} {outs : NodeId → Option φ}

/-- What flows into a node when `outs` flows out of the nodes. -/
def inflow (a : Analysis σ φ) (v : View) (outs : NodeId → Option φ) (n : NodeId) :
    Except Error φ :=
  if n = a.origin then .ok a.boundary
  else
    let known := (v.pred n).filterMap outs
    if known.isEmpty then .ok a.initial else a.join known

theorem incoming_eq (a : Analysis σ φ) (v : View) (facts : FlowFacts φ) (n : NodeId) :
    a.incoming v facts n = a.inflow v facts.out? n := rfl

theorem inflow_origin (a : Analysis σ φ) (v : View) (outs : NodeId → Option φ) :
    a.inflow v outs a.origin = .ok a.boundary := if_pos rfl

theorem inflow_initial (hn : n ≠ a.origin) (hknown : (v.pred n).filterMap outs = []) :
    a.inflow v outs n = .ok a.initial := by
  simp [inflow, hn, hknown]

theorem inflow_join (hn : n ≠ a.origin) (hknown : (v.pred n).filterMap outs ≠ []) :
    a.inflow v outs n = a.join ((v.pred n).filterMap outs) := by
  simp [inflow, hn, hknown]

/-- What flows into a node is one of three things. -/
theorem inflow_cases (h : a.inflow v outs n = .ok x) :
    (n = a.origin ∧ x = a.boundary) ∨
      (n ≠ a.origin ∧ (v.pred n).filterMap outs = [] ∧ x = a.initial) ∨
      (n ≠ a.origin ∧ (v.pred n).filterMap outs ≠ [] ∧
        a.join ((v.pred n).filterMap outs) = .ok x) := by
  by_cases horigin : n = a.origin
  · subst horigin
    rw [inflow_origin] at h
    exact .inl ⟨rfl, (Except.ok.inj h).symm⟩
  by_cases hnone : (v.pred n).filterMap outs = []
  · rw [inflow_initial horigin hnone] at h
    exact .inr (.inl ⟨horigin, hnone, (Except.ok.inj h).symm⟩)
  · rw [inflow_join horigin hnone] at h
    exact .inr (.inr ⟨horigin, hnone, h⟩)

/-- The fact that a transfer gives, without the state that it carries on. -/
def flow (a : Analysis σ φ) (memory : σ) (n : NodeId) (fact : φ) : Except Error φ :=
  (a.transfer memory n fact).map Prod.fst

/-- The state has no influence on the facts, and only equal facts count as
the same. -/
structure Plain (a : Analysis σ φ) : Prop where
  stateless : ∀ m m' n fact, a.flow m n fact = a.flow m' n fact
  same_iff : ∀ x y, a.same x y = true ↔ x = y

/-- From what flows out of the nodes, `x` flows into node `n`, and its
transfer gives `y`. -/
structure Computes (a : Analysis σ φ) (v : View) (outs : NodeId → Option φ) (n : NodeId)
    (x y : φ) : Prop where
  inflow : a.inflow v outs n = .ok x
  flow : ∀ m, a.flow m n x = .ok y

/-! ## Bringing a node up to date -/

/-- `s'` is `s` with node `n` brought up to date: `x` flows in, `y` out. -/
structure Updated (a : Analysis σ φ) (v : View) (size : Nat) (s s' : State σ φ) (n : NodeId)
    (x y : φ) : Prop where
  computes : a.Computes v s.facts.out? n x y
  fits : s'.facts.Fits size
  in? : ∀ m, s'.facts.in? m = if m = n then some x else s.facts.in? m
  out? : s'.facts.out? = Function.update s.facts.out? n (some y)
  changed : s'.changed = true ↔ s.changed = true ∨ s.facts.out? n ≠ some y

/-- The state once the two facts of a node are known. -/
def record (a : Analysis σ φ) (s : State σ φ) (n : NodeId) (x : φ) (r : φ × σ) :
    State σ φ :=
  if (match (s.facts.flowOut[n]?).join with
      | some old => a.same old r.1
      | none => false) then
    { s with facts := { s.facts with flowIn := s.facts.flowIn.setIfInBounds n (some x) },
             memory := r.2 }
  else
    ⟨⟨s.facts.flowIn.setIfInBounds n (some x), s.facts.flowOut.setIfInBounds n (some r.1)⟩,
      r.2, true⟩

theorem update_eq (a : Analysis σ φ) (v : View) (s : State σ φ) (n : NodeId) :
    a.update v s n = (a.inflow v s.facts.out? n).bind fun x =>
      (a.transfer s.memory n x).bind fun r => .ok (a.record s n x r) := by
  rw [← incoming_eq]
  show (a.incoming v s.facts n).bind _ = _
  congr 1
  funext x
  show (a.transfer s.memory n x).bind _ = _
  congr 1
  funext r
  rw [record, apply_ite Except.ok]
  rfl

private theorem updated_record (ha : a.Plain) (hs : s.facts.Fits size) (hn : n < size)
    {r : φ × σ} (hx : a.inflow v s.facts.out? n = .ok x)
    (hr : a.transfer s.memory n x = .ok r) :
    a.Updated v size s (a.record s n x r) n x r.1 := by
  have hcomputes : a.Computes v s.facts.out? n x r.1 := by
    refine ⟨hx, fun m => ?_⟩
    rw [ha.stateless m s.memory, flow, hr]
    rfl
  have hin : ∀ m, ((s.facts.flowIn.setIfInBounds n (some x))[m]?).join =
      if m = n then some x else s.facts.in? m :=
    join_setIfInBounds (by rw [hs.flowIn]; exact hn) x
  by_cases hold : s.facts.out? n = some r.1
  · have htest : (match (s.facts.flowOut[n]?).join with
        | some old => a.same old r.1
        | none => false) = true := by
      have hread : (s.facts.flowOut[n]?).join = some r.1 := hold
      rw [hread]
      exact (ha.same_iff _ _).2 rfl
    unfold record
    rw [if_pos htest]
    refine ⟨hcomputes, ⟨by simp [hs.flowIn], hs.flowOut⟩, hin, ?_, by simp [hold]⟩
    exact (Function.update_eq_self_iff.2 hold.symm).symm
  · have htest : ¬ (match (s.facts.flowOut[n]?).join with
        | some old => a.same old r.1
        | none => false) = true := by
      intro htrue
      split at htrue
      · next old hread => exact hold (hread.trans (by rw [(ha.same_iff _ _).1 htrue]))
      · cases htrue
    unfold record
    rw [if_neg htest]
    refine ⟨hcomputes, ⟨by simp [hs.flowIn], by simp [hs.flowOut]⟩, hin, ?_, by simp [hold]⟩
    funext m
    rw [Function.update_apply]
    exact join_setIfInBounds (by rw [hs.flowOut]; exact hn) r.1 m

/-- A successful update has computed both facts of its node. -/
theorem updated_of_update (ha : a.Plain) (hs : s.facts.Fits size) (hn : n < size)
    (h : a.update v s n = .ok s') : ∃ x y, a.Updated v size s s' n x y := by
  rw [update_eq] at h
  cases hx : a.inflow v s.facts.out? n with
  | error e => rw [hx] at h; cases h
  | ok x =>
      rw [hx] at h
      change (a.transfer s.memory n x).bind _ = _ at h
      cases hr : a.transfer s.memory n x with
      | error e => rw [hr] at h; cases h
      | ok r =>
          rw [hr] at h
          cases h
          exact ⟨x, r.1, updated_record ha hs hn hx hr⟩

/-- An update succeeds when both facts of its node can be computed. -/
theorem update_of_computes (ha : a.Plain) (hs : s.facts.Fits size) (hn : n < size)
    (h : a.Computes v s.facts.out? n x y) :
    ∃ s', a.update v s n = .ok s' ∧ a.Updated v size s s' n x y := by
  have hflow := h.flow s.memory
  unfold flow at hflow
  cases hr : a.transfer s.memory n x with
  | error e => rw [hr] at hflow; cases hflow
  | ok r =>
      rw [hr] at hflow
      have hy : r.1 = y := Except.ok.inj hflow
      refine ⟨a.record s n x r, ?_, hy ▸ updated_record ha hs hn h.inflow hr⟩
      rw [update_eq, h.inflow]
      show (a.transfer s.memory n x).bind _ = _
      rw [hr]
      rfl

/-! ## A pass that changes nothing -/

/-- Nodes brought up to date one after the other without a change: all of
them have seen the same outgoing facts, and the last facts written for a node
are the ones that these ask for. -/
private theorem foldlM_settled (ha : a.Plain) (hs : s.facts.Fits size)
    (horder : ∀ n ∈ order, n < size) (h : order.foldlM (a.update v) s = .ok s')
    (hsame : s'.changed = false) :
    s.changed = false ∧ s'.facts.Fits size ∧ s'.facts.out? = s.facts.out? ∧
      (∀ m, m ∉ order → s'.facts.in? m = s.facts.in? m) ∧
      ∀ n ∈ order, ∃ x y, a.Computes v s.facts.out? n x y ∧
        s'.facts.in? n = some x ∧ s.facts.out? n = some y := by
  induction order generalizing s with
  | nil =>
      cases h
      exact ⟨hsame, hs, rfl, fun _ _ => rfl, fun n hn => absurd hn List.not_mem_nil⟩
  | cons n rest ih =>
      rw [List.foldlM_cons] at h
      cases hstep : a.update v s n with
      | error e => rw [hstep] at h; cases h
      | ok s₁ =>
          rw [hstep] at h
          obtain ⟨x, y, hupdated⟩ :=
            updated_of_update ha hs (horder n List.mem_cons_self) hstep
          obtain ⟨hsame₁, hfits, hout, hin, hrest⟩ := ih hupdated.fits
            (fun m hm => horder m (List.mem_cons_of_mem _ hm)) h
          have hquiet : s.changed = false ∧ s.facts.out? n = some y := by
            have hnot := mt hupdated.changed.2 (by simp [hsame₁])
            simpa [not_or] using hnot
          have hout₁ : s₁.facts.out? = s.facts.out? := by
            rw [hupdated.out?]
            exact Function.update_eq_self_iff.2 hquiet.2.symm
          rw [hout₁] at hout hrest
          refine ⟨hquiet.1, hfits, hout, fun m hm => ?_, fun m hm => ?_⟩
          · simp only [List.mem_cons, not_or] at hm
            rw [hin m hm.2, hupdated.in?, if_neg hm.1]
          · by_cases hmem : m ∈ rest
            · exact hrest m hmem
            · have hmn : m = n := (List.mem_cons.1 hm).resolve_right hmem
              subst hmn
              refine ⟨x, y, hupdated.computes, ?_, hquiet.2⟩
              rw [hin m hmem, hupdated.in?, if_pos rfl]

/-- A pass that changes nothing leaves every node of it with the facts that
the outgoing facts of its neighbours ask for. -/
theorem pass_settled (ha : a.Plain) (hs : s.facts.Fits size) (horder : ∀ n ∈ order, n < size)
    (h : a.pass v order s = .ok s') (hsame : s'.changed = false) :
    s'.facts.out? = s.facts.out? ∧
      ∀ n ∈ order, ∃ x y, a.Computes v s.facts.out? n x y ∧
        s'.facts.in? n = some x ∧ s.facts.out? n = some y := by
  have hstart : ({ s with changed := false } : State σ φ).facts.Fits size := hs
  obtain ⟨-, -, hout, -, hnodes⟩ := foldlM_settled ha hstart horder h hsame
  exact ⟨hout, hnodes⟩

private theorem fits_foldlM (ha : a.Plain) (hs : s.facts.Fits size)
    (horder : ∀ n ∈ order, n < size) (h : order.foldlM (a.update v) s = .ok s') :
    s'.facts.Fits size := by
  induction order generalizing s with
  | nil => cases h; exact hs
  | cons n rest ih =>
      rw [List.foldlM_cons] at h
      cases hstep : a.update v s n with
      | error e => rw [hstep] at h; cases h
      | ok s₁ =>
          rw [hstep] at h
          obtain ⟨x, y, hupdated⟩ :=
            updated_of_update ha hs (horder n List.mem_cons_self) hstep
          exact ih hupdated.fits (fun m hm => horder m (List.mem_cons_of_mem _ hm)) h

/-! ## A run that settles -/

/-- The last pass of a run that ends well changes nothing, and it is the
first one only if the run begins there. -/
theorem iterate_ok (ha : a.Plain) (horder : ∀ n ∈ order, n < size) {limit remaining passes : Nat}
    (hs : s.facts.Fits size)
    (h : (a.iterate v order limit remaining passes s).result = .ok s') :
    ∃ s₀ : State σ φ, s₀.facts.Fits size ∧ a.pass v order s₀ = .ok s' ∧ s'.changed = false ∧
      (a.iterate v order limit remaining passes s).passes ≤ passes + remaining ∧
      ((a.iterate v order limit remaining passes s).passes = passes + 1 ∧ s₀ = s ∨
        passes + 2 ≤ (a.iterate v order limit remaining passes s).passes) := by
  induction remaining generalizing passes s with
  | zero => cases h
  | succ remaining ih =>
      simp only [iterate] at h ⊢
      cases hpass : a.pass v order s with
      | error e => rw [hpass] at h; cases h
      | ok s₁ =>
          simp only [hpass] at h ⊢
          by_cases hchanged : s₁.changed = true
          · rw [if_pos hchanged] at h ⊢
            have hstart : ({ s with changed := false } : State σ φ).facts.Fits size := hs
            obtain ⟨s₀, hfits, hlast, hsame, hle, hpasses⟩ :=
              ih (fits_foldlM ha hstart horder hpass) h
            exact ⟨s₀, hfits, hlast, hsame, by omega, .inr (by omega)⟩
          · rw [if_neg hchanged] at h ⊢
            cases h
            exact ⟨s, hs, hpass, by simpa using hchanged, by simp, .inl ⟨rfl, rfl⟩⟩

/-- The state before the first pass. -/
def blank (size : Nat) (memory : σ) : State σ φ :=
  ⟨⟨Array.replicate size none, Array.replicate size none⟩, memory, false⟩

theorem run_eq (a : Analysis σ φ) (c : Cfg) (limit : Nat) (memory : σ) :
    a.run c limit memory =
      a.iterate (a.orient c.view) (a.orient c.view).topologicalOrder limit limit 0
        (blank c.size memory) := rfl

theorem fits_blank (size : Nat) (memory : σ) :
    (blank size memory : State σ φ).facts.Fits size :=
  ⟨Array.size_replicate, Array.size_replicate⟩

theorem out?_blank (size : Nat) (memory : σ) :
    (blank size memory : State σ φ).facts.out? = fun _ => none := by
  funext n
  unfold blank FlowFacts.out?
  rw [Array.getElem?_replicate]
  split <;> rfl

theorem size_orient (a : Analysis σ φ) (v : View) : (a.orient v).size = v.size := by
  unfold orient
  split <;> rfl

theorem linked_orient (a : Analysis σ φ) (hv : v.Linked) : (a.orient v).Linked := by
  unfold orient
  split
  · exact hv
  · exact hv.reverse

theorem mem_order_lt (a : Analysis σ φ) (c : Cfg) :
    ∀ n ∈ (a.orient c.view).topologicalOrder, n < c.size := by
  intro n hn
  have hlt := View.mem_topologicalOrder.1 hn
  rwa [size_orient] at hlt

/-! ## Runs that never settle -/

/-- The state after a number of passes, each of which changes something. -/
def busy (a : Analysis σ φ) (v : View) (order : List NodeId) : Nat → State σ φ → Option (State σ φ)
  | 0, s => some s
  | count + 1, s =>
    match a.pass v order s with
    | .ok s' => if s'.changed then a.busy v order count s' else none
    | .error _ => none

theorem busy_add (m n : Nat) (s : State σ φ) :
    a.busy v order (m + n) s = (a.busy v order m s).bind (a.busy v order n) := by
  induction m generalizing s with
  | zero => rw [Nat.zero_add]; rfl
  | succ m ih =>
      rw [Nat.succ_add]
      simp only [busy]
      split
      · split
        · exact ih _
        · rfl
      · rfl

/-- Where every pass changes something, the pass limit is reached. -/
theorem iterate_error_of_busy {limit remaining passes : Nat}
    (h : a.busy v order remaining s ≠ none) :
    (a.iterate v order limit remaining passes s).result = .error (.notConverged a.name limit) := by
  induction remaining generalizing passes s with
  | zero => rfl
  | succ remaining ih =>
      cases hpass : a.pass v order s with
      | error e => exact absurd (by simp only [busy, hpass]) h
      | ok s' =>
          simp only [busy, hpass] at h
          simp only [iterate, hpass]
          by_cases hchanged : s'.changed = true
          · rw [if_pos hchanged] at h ⊢
            exact ih h
          · rw [if_neg hchanged] at h
            exact absurd rfl h

private theorem busy_ne_none_of_le {m n : Nat} (h : a.busy v order n s ≠ none) (hm : m ≤ n) :
    a.busy v order m s ≠ none := by
  obtain ⟨rest, hrest⟩ := Nat.exists_eq_add_of_le hm
  intro hnone
  rw [hrest, busy_add, hnone] at h
  exact h rfl

/-- Passes that lead back to a state they have left go on forever. -/
theorem busy_ne_none_of_return {period : Nat} (h : a.busy v order (period + 1) s = some s)
    (n : Nat) : a.busy v order n s ≠ none := by
  induction n using Nat.strongRecOn with
  | ind n ih =>
      by_cases hn : n ≤ period + 1
      · exact busy_ne_none_of_le (by simp [h]) hn
      · obtain ⟨rest, hrest⟩ := Nat.exists_eq_add_of_le (Nat.le_of_not_le hn)
        rw [hrest, busy_add, h]
        exact ih rest (by omega)

section Returns

variable [DecidableEq σ] [DecidableEq φ]

/-- Whether two states hold the same facts. -/
private def alike (s s' : State σ φ) : Bool :=
  s.facts.flowIn == s'.facts.flowIn && s.facts.flowOut == s'.facts.flowOut &&
    s.memory == s'.memory && s.changed == s'.changed

private theorem eq_of_alike (h : alike s s' = true) : s = s' := by
  simp only [alike, Bool.and_eq_true, beq_iff_eq] at h
  obtain ⟨⟨⟨hin, hout⟩, hmemory⟩, hchanged⟩ := h
  cases s with
  | mk facts memory changed =>
      cases s' with
      | mk facts' memory' changed' =>
          cases facts
          cases facts'
          simp_all

/-- Whether the passes come, after `k` of them, to a state to which the next
`period + 1` lead back. -/
def returns (a : Analysis σ φ) (c : Cfg) (memory : σ) (k period : Nat) : Bool :=
  let v := a.orient c.view
  let order := v.topologicalOrder
  (a.busy v order k (blank c.size memory)).any fun s =>
    (a.busy v order (period + 1) s).any (alike s)

/-- No pass limit is high enough for an analysis whose passes lead back to a
state they have left. -/
theorem solve_error_of_returns {c : Cfg} {memory : σ} (k period : Nat)
    (h : a.returns c memory k period = true) (config : Config) :
    a.solve c config memory = .error (.notConverged a.name config.maxIterations) := by
  have hbusy : ∀ n, a.busy (a.orient c.view) (a.orient c.view).topologicalOrder n
      (blank c.size memory) ≠ none := by
    intro n
    unfold returns at h
    cases hk : a.busy (a.orient c.view) (a.orient c.view).topologicalOrder k
        (blank c.size memory) with
    | none => simp [hk] at h
    | some s =>
        simp only [hk, Option.any_some, Option.any_eq_true] at h
        obtain ⟨s', hback, halike⟩ := h
        rw [← eq_of_alike halike] at hback
        refine busy_ne_none_of_le ?_ (Nat.le_add_left n k)
        rw [busy_add, hk]
        exact busy_ne_none_of_return hback n
  have hresult : (a.run c config.maxIterations memory).result =
      .error (.notConverged a.name config.maxIterations) := by
    rw [run_eq]
    exact iterate_error_of_busy (hbusy _)
  rw [solve]
  simp only [hresult]
  rfl

end Returns

end Analysis

/-! ## Reading a solution -/

private theorem InfoStore.get?_set {α τ : Type} [Ordered α] [DecidableEq α] [DecidableEq τ]
    {val : τ → Type} {tag : τ} (store : InfoStore α τ val) (subject : α) (k : InfoKey tag)
    (value : val tag) (subject' : α) (k' : InfoKey tag) :
    (store.set subject k value).get? subject' k' =
      if subject' = subject ∧ k'.name = k.name then some value
      else store.get? subject' k' := by
  have hbag : (store.set subject k value).bag? subject' =
      if subject' = subject then some ((store.bag subject).set k value)
      else store.bag? subject' :=
    SortedMap.get?_insert _ _ _ _
  unfold InfoStore.get?
  rw [hbag]
  by_cases hsubject : subject' = subject
  · subst hsubject
    have hfact : ((store.bag subject').set k value).facts.get? k'.name =
        if k'.name = k.name then some ⟨tag, value⟩
        else (store.bag subject').facts.get? k'.name :=
      SortedMap.get?_insert _ _ _ _
    rw [if_pos rfl, Option.bind_some, InfoBag.get?, InfoBag.get, hfact]
    by_cases hname : k'.name = k.name
    · simp [hname, InfoBag.read, Except.toOption]
    · rw [if_neg hname, if_neg (by simp [hname])]
      unfold InfoStore.bag
      cases hbag? : store.bag? subject' with
      | none => simp [InfoBag.empty, Except.toOption]
      | some b => rfl
  · rw [if_neg hsubject, if_neg (by simp [hsubject])]

namespace Solution

/-- The fact that flows into a node, on whichever side of it that is. -/
def flowIn? (s : Solution σ φ) (direction : Direction) (n : NodeId) : Option φ :=
  match direction with
  | .forward => s.input? n
  | .backward => s.output? n

/-- The fact that flows out of a node, on whichever side of it that is. -/
def flowOut? (s : Solution σ φ) (direction : Direction) (n : NodeId) : Option φ :=
  match direction with
  | .forward => s.output? n
  | .backward => s.input? n

/-- The fact that a store holds for a node. -/
private def read? (facts : InfoStore NodeId FactTag (FactTag.type φ))
    (key : InfoKey FactTag.fact) (n : NodeId) : Option φ := facts.get? n key

private theorem read?_store (facts : InfoStore NodeId FactTag (FactTag.type φ))
    (key : InfoKey FactTag.fact) (m : NodeId) (fact : Option φ) (key' : InfoKey FactTag.fact)
    (n : NodeId) :
    read? (store facts key m fact) key' n =
      if n = m ∧ key'.name = key.name then fact.or (read? facts key' n)
      else read? facts key' n := by
  cases fact with
  | none => simp [store]
  | some x => exact InfoStore.get?_set facts m key x n key'

/-- What is stored node by node can be read at each of them. -/
private theorem read?_foldl_store (before after : NodeId → Option φ) (nodes : List NodeId)
    (n : NodeId) :
    let facts := nodes.foldl
      (fun facts m => store (store facts inputKey m (before m)) outputKey m (after m))
      InfoStore.empty
    read? facts inputKey n = (if n ∈ nodes then before n else none) ∧
      read? facts outputKey n = (if n ∈ nodes then after n else none) := by
  induction nodes using List.reverseRecOn with
  | nil => exact ⟨rfl, rfl⟩
  | append_singleton nodes m ih =>
      obtain ⟨hinput, houtput⟩ := ih
      have hkeys : inputKey.name ≠ outputKey.name := by decide
      simp only [List.foldl_append, List.foldl_cons, List.foldl_nil, read?_store, hinput,
        houtput, hkeys, Ne.symm hkeys, and_false, and_true, if_false, List.mem_append,
        List.mem_singleton]
      by_cases hnm : n = m
      · subst hnm
        by_cases hmem : n ∈ nodes <;> cases before n <;> cases after n <;> simp [hmem]
      · simp [hnm]

theorem read_ofState (direction : Direction) (size passes : Nat)
    (s : Analysis.State σ φ) {n : NodeId} (hn : n < size) :
    (ofState direction size passes s).flowIn? direction n = s.facts.in? n ∧
      (ofState direction size passes s).flowOut? direction n = s.facts.out? n := by
  have hmem : n ∈ List.range size := List.mem_range.2 hn
  cases direction with
  | forward =>
      have hread := read?_foldl_store s.facts.in? s.facts.out? (List.range size) n
      rw [if_pos hmem, if_pos hmem] at hread
      exact hread
  | backward =>
      have hread := read?_foldl_store s.facts.out? s.facts.in? (List.range size) n
      rw [if_pos hmem, if_pos hmem] at hread
      exact hread.symm

end Solution

/-! ## The dataflow equations -/

namespace Analysis

variable {a : Analysis σ φ} {c : Cfg} {config : Config} {memory : σ} {s : Solution σ φ}

/-- The facts on both sides of every node solve the equations of the
analysis: the boundary fact flows into the origin, the join of what flows out
of all neighbours flows into any other node, the initial fact where there are
no neighbours, and every transfer is made. -/
structure Solves (a : Analysis σ φ) (v : View) (ins outs : NodeId → φ) : Prop where
  boundary : ins a.origin = a.boundary
  join : ∀ n < v.size, n ≠ a.origin → v.pred n ≠ [] →
    a.join ((v.pred n).map outs) = .ok (ins n)
  initial : ∀ n < v.size, n ≠ a.origin → v.pred n = [] → ins n = a.initial
  transfer : ∀ n < v.size, ∀ m, a.flow m n (ins n) = .ok (outs n)

/-- Facts that every node agrees with solve the equations. -/
private theorem solves_of_computes {v : View} (hv : v.Linked) (horigin : a.origin < v.size)
    {ins outs : NodeId → φ} (known : NodeId → Option φ)
    (hknown : ∀ n < v.size, known n = some (outs n))
    (h : ∀ n < v.size, a.Computes v known n (ins n) (outs n)) : a.Solves v ins outs := by
  have hpreds : ∀ n, (v.pred n).filterMap known = (v.pred n).map outs := by
    intro n
    rw [← List.filterMap_eq_map]
    refine List.filterMap_congr fun p hp => ?_
    exact hknown p (hv.source_lt (hv.mem_pred.1 hp))
  refine ⟨?_, ?_, ?_, fun n hn => (h n hn).flow⟩
  · exact (Except.ok.inj ((inflow_origin a v known).symm.trans (h _ horigin).inflow)).symm
  · intro n hn hne hpred
    have hjoin := (h n hn).inflow
    rw [inflow_join hne (by simpa [hpreds] using hpred), hpreds] at hjoin
    exact hjoin
  · intro n hn hne hpred
    have hinitial := (h n hn).inflow
    rw [inflow_initial hne (by simp [hpred])] at hinitial
    exact (Except.ok.inj hinitial).symm

theorem origin_lt (a : Analysis σ φ) (hexit : Cfg.exit < c.size) : a.origin < c.size := by
  unfold origin
  split
  · exact Nat.lt_trans (by decide) hexit
  · exact hexit

theorem solve_eq_ok_iff : a.solve c config memory = .ok s ↔
    ∃ last, (a.run c config.maxIterations memory).result = .ok last ∧
      s = .ofState a.direction c.size (a.run c config.maxIterations memory).passes last := by
  rw [solve]
  cases hresult : (a.run c config.maxIterations memory).result with
  | error e => simp [Except.map]
  | ok last => simp [Except.map, eq_comm]

/-- A run that ends well has made at least two passes, and each node has the
facts that the final facts ask for. -/
theorem run_settled (ha : a.Plain) (hexit : Cfg.exit < c.size) {limit : Nat}
    {last : State σ φ} (h : (a.run c limit memory).result = .ok last) :
    2 ≤ (a.run c limit memory).passes ∧ (a.run c limit memory).passes ≤ limit ∧
      ∀ n < c.size, ∃ x y, a.Computes (a.orient c.view) last.facts.out? n x y ∧
        last.facts.in? n = some x ∧ last.facts.out? n = some y := by
  rw [run_eq] at h ⊢
  obtain ⟨s₀, hfits, hpass, hsame, hle, hfirst⟩ :=
    iterate_ok ha (a.mem_order_lt c) (fits_blank c.size memory) h
  obtain ⟨hout, hnodes⟩ := pass_settled ha hfits (a.mem_order_lt c) hpass hsame
  have hall : ∀ n < c.size, ∃ x y, a.Computes (a.orient c.view) s₀.facts.out? n x y ∧
      last.facts.in? n = some x ∧ s₀.facts.out? n = some y := by
    intro n hn
    exact hnodes n (View.mem_topologicalOrder.2 (by rw [size_orient]; exact hn))
  refine ⟨?_, by omega, by rw [hout]; exact hall⟩
  rcases hfirst with ⟨-, hblank⟩ | htwo
  · -- Before the first pass no node has a fact, so that pass changes something.
    obtain ⟨x, y, -, -, hy⟩ := hall a.origin (a.origin_lt hexit)
    rw [hblank, out?_blank] at hy
    cases hy
  · omega

/-- The facts of a solved analysis solve its equations. -/
theorem exists_solves_of_solve (ha : a.Plain) (hc : c.graph.Built) (hexit : Cfg.exit < c.size)
    (h : a.solve c config memory = .ok s) :
    ∃ ins outs : NodeId → φ, a.Solves (a.orient c.view) ins outs ∧
      ∀ n < c.size, s.flowIn? a.direction n = some (ins n) ∧
        s.flowOut? a.direction n = some (outs n) := by
  obtain ⟨last, hlast, rfl⟩ := solve_eq_ok_iff.1 h
  obtain ⟨-, -, hall⟩ := run_settled ha hexit hlast
  have hsize : (a.orient c.view).size = c.size := a.size_orient c.view
  have hlinked : (a.orient c.view).Linked := a.linked_orient hc.linked
  have hfact : Nonempty φ := ⟨a.boundary⟩
  choose! ins outs hfacts using hall
  refine ⟨ins, outs, solves_of_computes hlinked ?_ last.facts.out? ?_ ?_, ?_⟩
  · rw [hsize]
    exact a.origin_lt hexit
  · exact fun n hn => (hfacts n (hsize ▸ hn)).2.2
  · exact fun n hn => (hfacts n (hsize ▸ hn)).1
  · intro n hn
    obtain ⟨hin, hout⟩ := Solution.read_ofState a.direction c.size
      (a.run c config.maxIterations memory).passes last hn
    rw [hin, hout]
    exact (hfacts n hn).2

/-- **A solved analysis is a fixpoint.**  The run took at least two passes
and no more than allowed; every node has a fact on both sides, and these
facts solve the dataflow equations with all neighbours counted. -/
theorem solve_solves (ha : a.Plain) (hc : c.graph.Built) (hexit : Cfg.exit < c.size)
    (h : a.solve c config memory = .ok s) :
    2 ≤ s.passes ∧ s.passes ≤ config.maxIterations ∧
      ∃ ins outs : NodeId → φ, a.Solves (a.orient c.view) ins outs ∧
        ∀ n < c.size, s.flowIn? a.direction n = some (ins n) ∧
          s.flowOut? a.direction n = some (outs n) := by
  obtain ⟨last, hlast, hs⟩ := solve_eq_ok_iff.1 h
  obtain ⟨htwo, hlimit, -⟩ := run_settled ha hexit hlast
  rw [hs] at h ⊢
  exact ⟨htwo, hlimit, exists_solves_of_solve ha hc hexit h⟩

end Analysis

theorem Liveness.plain (c : Cfg) : (Liveness.analysis c).Plain where
  stateless _ _ _ _ := rfl
  same_iff _ _ := beq_iff_eq

theorem exists_eq_ok {ε α : Type} {r : Except ε α} (h : r.isOk = true) : ∃ x, r = .ok x := by
  cases r with
  | error e => cases h
  | ok x => exact ⟨x, rfl⟩

/-- A loop that copies `x` to `y` before `y` is returned. -/
def copyLoop : List Instruction :=
  [⟨0, .loadConstant ⟨"x", none, .local⟩⟩,
    ⟨1, .copy ⟨"y", none, .local⟩ ⟨"x", none, .local⟩⟩,
    ⟨2, .branch .conditional 1⟩, ⟨3, .return (some ⟨"y", none, .local⟩)⟩]

/-- The graph of the loop. -/
def copyLoopGraph : Cfg := ⟨none, (Cfg.Layout.of copyLoop []).graph .default⟩

/-- The live variables of the loop, backward from the exit. -/
theorem Analysis.solve_solves_liveness :
    ∃ s, (Liveness.analysis copyLoopGraph).solve copyLoopGraph .default () = .ok s ∧
      copyLoopGraph.graph.Built ∧ 2 ≤ s.passes ∧
      ∃ ins outs, (Liveness.analysis copyLoopGraph).Solves copyLoopGraph.view.reverse ins outs ∧
        ∀ n < copyLoopGraph.size, s.output? n = some (ins n) ∧ s.input? n = some (outs n) := by
  have hwired : copyLoopGraph.Wired := Cfg.Layout.wired rfl
  obtain ⟨s, hs⟩ : ∃ s, (Liveness.analysis copyLoopGraph).solve copyLoopGraph .default () =
      .ok s := exists_eq_ok (by decide +kernel)
  obtain ⟨htwo, -, hsolves⟩ :=
    Analysis.solve_solves (Liveness.plain copyLoopGraph) hwired.built hwired.exit_lt hs
  exact ⟨s, hs, hwired.built, htwo, hsolves⟩

end MethodFlow
