import MethodFlow.Proofs.Flow.Ascent
import MethodFlow.Proofs.Flow.Carried

/-!
# Runs that carry a state and settle

An analysis that hands a state from one transfer to the next settles for the
same reason as a plain one: what flows out of a node only rises, and not
forever.  But two transfers of one node are made under different states, and
only under one and the same state do they compare.  So the invariant does not
speak of the transfers as they were made.  It speaks of what a node has seen,
transferred again under the state of now (`Rising.below`): whatever flowed
out is at or below that, and what the node has seen is at or below what flows
in now.

Transfers may fail.  The run then fails in the same way, and in no other:
facts of neighbours can always be joined, and the passes suffice.

## Main results

* `Analysis.Grows.rising_stepped`: one node brought up to date keeps the
  invariant, and it uses up some of the slack when a fact changes.
* `Analysis.Grows.solve_ends`: with enough passes, a run ends with legal
  facts or fails as a transfer does.
-/

namespace MethodFlow

namespace Analysis

variable {σ φ : Type} {a : Analysis σ φ} {v : View} {s s' : State σ φ} {n : NodeId} {x x' y : φ}
  {size cap : Nat} {order : List NodeId} {outs outs' : NodeId → Option φ} {m : σ}
  {Good : σ → Prop} {Extends : σ → σ → Prop} {Legal : σ → φ → Prop} {le : φ → φ → Prop}
  {room : φ → Nat} {Fails : Error → Prop}

/-- What makes the facts of an analysis that carries a state rise, and not
rise forever: joins are least upper bounds, transfers under one state are
monotone, and a legal fact that rises has less room to rise further. -/
structure Grows (a : Analysis σ φ) (Good : σ → Prop) (Extends : σ → σ → Prop)
    (Legal : σ → φ → Prop) (le : φ → φ → Prop) (room : φ → Nat) (cap : Nat)
    (Fails : Error → Prop) : Prop extends Carries a Good Extends Legal where
  le_refl : ∀ x, le x x
  le_trans : ∀ x y z, le x y → le y z → le x z
  initial_le : ∀ {m x}, Good m → Legal m x → le a.initial x
  join_least : ∀ {m facts}, Good m → facts ≠ [] → (∀ y ∈ facts, Legal m y) →
    ∃ x, a.join facts = .ok x ∧ (∀ y ∈ facts, le y x) ∧ ∀ z, (∀ y ∈ facts, le y z) → le x z
  fails : ∀ {m n x e}, Good m → Legal m x → a.transfer m n x = .error e → Fails e
  transfer_mono : ∀ {m n x x' y y'}, Good m → Legal m x → Legal m x' → le x x' →
    a.transfer m n x = .ok (y, m) → a.transfer m n x' = .ok (y', m) → le y y'
  room_le : ∀ {m x}, Good m → Legal m x → room x ≤ cap
  room_lt : ∀ {m x y}, Good m → Legal m x → Legal m y → le x y → a.same x y = false →
    room y < room x

/-- The invariant of a rising run.  What flows out of a node is at or below
what the node makes now of something it has seen, and more than that flows in
by now. -/
structure Rising (a : Analysis σ φ) (v : View) (Good : σ → Prop) (Legal : σ → φ → Prop)
    (le : φ → φ → Prop) (size : Nat) (s : State σ φ) : Prop extends Kept Good Legal size s where
  below : ∀ n old, s.facts.out? n = some old → ∃ x y, Legal s.memory x ∧
    a.transfer s.memory n x = .ok (y, s.memory) ∧ le old y ∧
    ∀ x', a.inflow v s.facts.out? n = .ok x' → le x x'

theorem rising_blank {memory : σ} (hgood : Good memory) (size : Nat) :
    a.Rising v Good Legal le size (blank size memory) where
  toKept := kept_blank hgood size
  below n old h := by
    rw [out?_blank] at h
    cases h

/-- How far the facts of all nodes together can still rise; a node without a
fact has the whole way before it. -/
def slack (room : φ → Nat) (cap size : Nat) (outs : NodeId → Option φ) : Nat :=
  ∑ n ∈ Finset.range size, (outs n).elim (cap + 1) room

theorem slack_none (room : φ → Nat) (cap size : Nat) :
    slack room cap size (fun _ => none) = size * (cap + 1) := by
  simp [slack]

theorem slack_update_lt (hn : n < size) (hroom : room y < (outs n).elim (cap + 1) room) :
    slack room cap size (Function.update outs n (some y)) < slack room cap size outs := by
  refine Finset.sum_lt_sum (fun k _ => ?_) ⟨n, Finset.mem_range.2 hn, ?_⟩
  · by_cases hk : k = n
    · subst hk
      rw [Function.update_self]
      exact Nat.le_of_lt hroom
    · rw [Function.update_of_ne hk]
  · rw [Function.update_self]
    exact hroom

namespace Grows

/-! ## What flows in -/

/-- Something flows into every node. -/
theorem exists_inflow (h : a.Grows Good Extends Legal le room cap Fails) (hgood : Good m)
    (houts : ∀ n x, outs n = some x → Legal m x) (v : View) (n : NodeId) :
    ∃ x, a.inflow v outs n = .ok x := by
  by_cases horigin : n = a.origin
  · subst horigin
    exact ⟨_, inflow_origin a v outs⟩
  by_cases hnone : (v.pred n).filterMap outs = []
  · exact ⟨_, inflow_initial horigin hnone⟩
  · obtain ⟨x, hx, -⟩ := h.join_least hgood hnone (legal_of_mem_pred houts)
    exact ⟨x, (inflow_join horigin hnone).trans hx⟩

/-- More flows in when more flows out. -/
theorem inflow_rises (h : a.Grows Good Extends Legal le room cap Fails) (hgood : Good m)
    (houts : ∀ n x, outs n = some x → Legal m x) (houts' : ∀ n x, outs' n = some x → Legal m x)
    (hrises : Rises le outs outs') (hx : a.inflow v outs n = .ok x)
    (hx' : a.inflow v outs' n = .ok x') : le x x' := by
  refine inflow_le_of_rises h.le_refl h.le_trans hrises ?_ ?_ ?_ hx hx'
  · exact fun _ _ => .inr (h.initial_le hgood (h.legal_inflow hgood houts' hx'))
  · intro hsome hok
    obtain ⟨z, hz, -, hleast⟩ := h.join_least hgood hsome (legal_of_mem_pred houts)
    rw [hz] at hok
    exact Except.ok.inj hok ▸ hleast
  · intro hsome hok
    obtain ⟨z, hz, habove, -⟩ := h.join_least hgood hsome (legal_of_mem_pred houts')
    rw [hz] at hok
    exact Except.ok.inj hok ▸ habove

/-! ## One node -/

/-- What flowed out of a node before is at or below what it gives now. -/
private theorem le_of_stepped (h : a.Grows Good Extends Legal le room cap Fails)
    (hs : a.Rising v Good Legal le size s) (hstep : a.Stepped v size s s' n x y) {old : φ}
    (hold : s.facts.out? n = some old) : le old y := by
  obtain ⟨hkept, hextends⟩ := h.kept_stepped hs.toKept hstep
  obtain ⟨x₀, y₀, hlegal, htransfer, hle, hseen⟩ := hs.below n old hold
  have hx := h.legal_inflow hs.good hs.outs hstep.inflow
  have hagain := h.replay htransfer hextends
  have hnow := h.replay hstep.transfer (h.refl _)
  exact h.le_trans _ _ _ hle (h.transfer_mono hkept.good (h.mono hextends hlegal)
    (h.mono hextends hx) (hseen x hstep.inflow) hagain hnow)

/-- **One node.**  Bringing a node up to date keeps the invariant. -/
theorem rising_stepped (h : a.Grows Good Extends Legal le room cap Fails)
    (hs : a.Rising v Good Legal le size s) (hstep : a.Stepped v size s s' n x y) :
    a.Rising v Good Legal le size s' := by
  obtain ⟨hkept, hextends⟩ := h.kept_stepped hs.toKept hstep
  have houts : ∀ k z, s.facts.out? k = some z → Legal s'.memory z :=
    fun k z hz => h.mono hextends (hs.outs k z hz)
  have hrises : Rises le s.facts.out? s'.facts.out? := by
    rcases hstep.outcome with ⟨hout, -⟩ | ⟨hout, -⟩
    · rw [hout]
      exact fun k z hz => ⟨z, hz, h.le_refl z⟩
    · rw [hout]
      exact rises_update h.le_refl fun old hold => h.le_of_stepped hs hstep hold
  -- What a node has seen before is at or below what flows in after the step.
  have hkeep : ∀ k old, s.facts.out? k = some old → ∃ x₀ y₀, Legal s'.memory x₀ ∧
      a.transfer s'.memory k x₀ = .ok (y₀, s'.memory) ∧ le old y₀ ∧
      ∀ x', a.inflow v s'.facts.out? k = .ok x' → le x₀ x' := by
    intro k old hold
    obtain ⟨x₀, y₀, hlegal, htransfer, hle, hseen⟩ := hs.below k old hold
    refine ⟨x₀, y₀, h.mono hextends hlegal, h.replay htransfer hextends, hle, fun x' hx' => ?_⟩
    obtain ⟨x₁, hx₁⟩ := h.exists_inflow hkept.good houts v k
    exact h.le_trans _ _ _ (hseen x₁ hx₁)
      (h.inflow_rises hkept.good houts hkept.outs hrises hx₁ hx')
  refine ⟨hkept, fun k old hold => ?_⟩
  rcases hstep.outcome with ⟨hout, -⟩ | ⟨hout, -⟩
  · rw [hout] at hold
    exact hkeep k old hold
  · by_cases hk : k = n
    · subst hk
      rw [hout, Function.update_self] at hold
      cases hold
      have hx := h.mono hextends (h.legal_inflow hs.good hs.outs hstep.inflow)
      exact ⟨x, y, hx, h.replay hstep.transfer (h.refl _), h.le_refl y,
        fun x' hx' => h.inflow_rises hkept.good houts hkept.outs hrises hstep.inflow hx'⟩
    · rw [hout, Function.update_of_ne hk] at hold
      exact hkeep k old hold

/-- A fact that changes uses up some of the slack. -/
theorem slack_stepped (h : a.Grows Good Extends Legal le room cap Fails)
    (hs : a.Rising v Good Legal le size s) (hstep : a.Stepped v size s s' n x y) (hn : n < size) :
    slack room cap size s'.facts.out? ≤ slack room cap size s.facts.out? ∧
      (s'.changed = true → s.changed = true ∨
        slack room cap size s'.facts.out? < slack room cap size s.facts.out?) := by
  obtain ⟨hkept, hextends⟩ := h.kept_stepped hs.toKept hstep
  rcases hstep.outcome with ⟨hout, hchanged, -⟩ | ⟨hout, -, hdiffers⟩
  · rw [hout, hchanged]
    exact ⟨Nat.le_refl _, .inl⟩
  · have hy : Legal s'.memory y := hkept.outs n y (by rw [hout, Function.update_self])
    have hroom : room y < (s.facts.out? n).elim (cap + 1) room := by
      cases hold : s.facts.out? n with
      | none => exact Nat.lt_succ_of_le (h.room_le hkept.good hy)
      | some old =>
          exact h.room_lt hkept.good (h.mono hextends (hs.outs n old hold)) hy
            (h.le_of_stepped hs hstep hold) (hdiffers old hold)
    have hfall := slack_update_lt hn hroom
    rw [hout]
    exact ⟨Nat.le_of_lt hfall, fun _ => .inr hfall⟩

/-- Bringing a node up to date fails only as its transfer does. -/
theorem fails_of_update (h : a.Grows Good Extends Legal le room cap Fails)
    (hs : Kept Good Legal size s) {e : Error} (herror : a.update v s n = .error e) : Fails e := by
  rw [update_eq] at herror
  rcases bind_eq_error.1 herror with hinflow | ⟨x, hx, herror⟩
  · obtain ⟨x, hx⟩ := h.exists_inflow hs.good hs.outs v n
    rw [hx] at hinflow
    cases hinflow
  · rcases bind_eq_error.1 herror with htransfer | ⟨r, -, herror⟩
    · exact h.fails hs.good (h.legal_inflow hs.good hs.outs hx) htransfer
    · cases herror

/-! ## Passes -/

/-- A pass keeps the invariant and uses up some of the slack if it changes
something. -/
theorem rising_pass (h : a.Grows Good Extends Legal le room cap Fails)
    (horder : ∀ n ∈ order, n < size) (hs : a.Rising v Good Legal le size s)
    (hpass : a.pass v order s = .ok s') :
    a.Rising v Good Legal le size s' ∧ (s'.changed = true →
      slack room cap size s'.facts.out? < slack room cap size s.facts.out?) := by
  have hstart : a.Rising v Good Legal le size { s with changed := false } :=
    ⟨hs.toKept.unchanged, hs.below⟩
  have hkeeps : a.Rising v Good Legal le size s' ∧
      slack room cap size s'.facts.out? ≤ slack room cap size s.facts.out? ∧
      (s'.changed = true →
        slack room cap size s'.facts.out? < slack room cap size s.facts.out?) := by
    refine foldlM_keeps (P := fun t : State σ φ => a.Rising v Good Legal le size t ∧
      slack room cap size t.facts.out? ≤ slack room cap size s.facts.out? ∧
      (t.changed = true → slack room cap size t.facts.out? < slack room cap size s.facts.out?))
      ?_ ⟨hstart, Nat.le_refl _, fun hchanged => by cases hchanged⟩ hpass
    rintro n hn t t' ⟨ht, hle, hlt⟩ hupdate
    obtain ⟨x, y, hstep⟩ := stepped_of_update ht.fits (horder n hn) hupdate
    obtain ⟨hle', hlt'⟩ := h.slack_stepped ht hstep (horder n hn)
    refine ⟨h.rising_stepped ht hstep, Nat.le_trans hle' hle, fun hchanged => ?_⟩
    rcases hlt' hchanged with hbefore | hfall
    · exact Nat.lt_of_le_of_lt hle' (hlt hbefore)
    · exact Nat.lt_of_lt_of_le hfall hle
  exact ⟨hkeeps.1, hkeeps.2.2⟩

theorem fails_of_pass (h : a.Grows Good Extends Legal le room cap Fails)
    (horder : ∀ n ∈ order, n < size) (hs : Kept Good Legal size s) {e : Error}
    (herror : a.pass v order s = .error e) : Fails e :=
  foldlM_fails (P := Kept Good Legal size)
    (fun n hn _ _ ht hupdate => h.kept_update (horder n hn) ht hupdate)
    (fun _ _ _ _ ht hfail => h.fails_of_update ht hfail) hs.unchanged herror

/-- A run whose passes suffice for the slack fails only as a transfer
does. -/
theorem fails_of_iterate (h : a.Grows Good Extends Legal le room cap Fails)
    (horder : ∀ n ∈ order, n < size) {limit remaining passes : Nat}
    (hs : a.Rising v Good Legal le size s)
    (hslack : slack room cap size s.facts.out? < remaining) {e : Error}
    (herror : (a.iterate v order limit remaining passes s).result = .error e) : Fails e := by
  induction remaining generalizing passes s with
  | zero => exact absurd hslack (Nat.not_lt_zero _)
  | succ remaining ih =>
      simp only [iterate] at herror
      cases hpass : a.pass v order s with
      | error e' =>
          rw [hpass] at herror
          cases herror
          exact h.fails_of_pass horder hs.toKept hpass
      | ok s₁ =>
          simp only [hpass] at herror
          by_cases hchanged : s₁.changed = true
          · rw [if_pos hchanged] at herror
            obtain ⟨hs₁, hfall⟩ := h.rising_pass horder hs hpass
            exact ih hs₁ (Nat.lt_of_lt_of_le (hfall hchanged) (Nat.le_of_lt_succ hslack)) herror
          · rw [if_neg hchanged] at herror
            cases herror

/-! ## Solutions -/

/-- **A rising run settles.**  When there are passes enough for every fact to
rise all the way, the run fails as one of its transfers does, or it ends with
a good state and legal facts on both sides of every node. -/
theorem solve_ends {c : Cfg} {config : Config} {memory : σ}
    (h : a.Grows Good Extends Legal le room cap Fails) (hgood : Good memory)
    (hlimit : c.size * (cap + 1) < config.maxIterations) :
    (∃ e, Fails e ∧ a.solve c config memory = .error e) ∨
      ∃ s, a.solve c config memory = .ok s ∧ Good s.memory ∧ ∀ n < c.size, ∃ x y,
        s.flowIn? a.direction n = some x ∧ s.flowOut? a.direction n = some y ∧
          Legal s.memory x ∧ Legal s.memory y := by
  cases hresult : (a.run c config.maxIterations memory).result with
  | error e =>
      refine .inl ⟨e, ?_, by rw [solve]; simp only [hresult]; rfl⟩
      rw [run_eq] at hresult
      refine h.fails_of_iterate (a.mem_order_lt c) (rising_blank hgood c.size) ?_ hresult
      rw [out?_blank, slack_none]
      exact hlimit
  | ok last =>
      refine .inr ⟨_, solve_eq_ok_iff.2 ⟨last, hresult, rfl⟩, ?_⟩
      rw [run_eq] at hresult
      obtain ⟨s₀, hs₀, hpass, hsame⟩ :=
        h.kept_iterate (a.mem_order_lt c) (kept_blank hgood c.size) hresult
      obtain ⟨-, hlast, -, hout, -, hrests⟩ :=
        h.foldlM_rests (a.mem_order_lt c) hs₀.unchanged hpass hsame
      refine ⟨hlast.good, fun n hn => ?_⟩
      obtain ⟨hread, hread'⟩ := Solution.read_ofState a.direction c.size
        (a.run c config.maxIterations memory).passes last hn
      have hturn : n ∈ (a.orient c.view).topologicalOrder :=
        View.mem_topologicalOrder.2 (by rw [a.size_orient]; exact hn)
      obtain ⟨x, y, _, hx, hrest⟩ := hrests n hturn
      have hy : last.facts.out? n = some y := by
        rw [hout]
        exact hrest.out
      exact ⟨x, y, hread.trans hx, hread'.trans hy, hlast.ins n x hx, hlast.outs n y hy⟩

end Grows

end Analysis

end MethodFlow
