import Mathlib.Algebra.Order.BigOperators.Group.Finset
import Mathlib.Order.KrullDimension
import MethodFlow.Proofs.Flow.Passes

/-!
# Runs whose facts only rise

A run settles when no node ever takes back what it has said: every fact that
flows out of a node is at or above the one before it, and there is no endless
rise.  The reason is one invariant.  Wherever a node has a fact, the fact is
at or below the one that would be computed for the node now.  Writing the new
fact keeps this true at the node and, because the computation is monotone, at
all others.

Facts that are missing are left out of a join, so they count as lying below
all facts.  This is where care is needed: a node none of whose neighbours has
a fact yet gets the initial fact, which may lie above what its neighbours
will say.  `Ascent` therefore speaks of nodes that are *ready*, and of
assignments that are *legal*, and leaves it to the analysis to say what the
two mean.

## Main results

* `Analysis.Ascent.solve_ok`: such a run settles, within a bound that does
  not depend on the pass limit.
* `Analysis.solve_least`: a monotone analysis over facts of height `h` settles
  within `N * h + 2` passes on `N` nodes, and its solution is the least one.
-/

namespace MethodFlow

namespace Analysis

variable {σ φ : Type} {a : Analysis σ φ} {v : View} {s s' : State σ φ} {n : NodeId}
  {x x' y y' : φ} {outs outs' : NodeId → Option φ} {le : φ → φ → Prop} {rank : φ → Nat}
  {Legal : (NodeId → Option φ) → Prop} {Ready : (NodeId → Option φ) → NodeId → Prop}

/-! ## Monotone steps -/

/-- Every fact of the first assignment is at or below the one of the
second. -/
def Rises (le : φ → φ → Prop) (outs outs' : NodeId → Option φ) : Prop :=
  ∀ n x, outs n = some x → ∃ y, outs' n = some y ∧ le x y

/-- The join of facts is their least upper bound. -/
def JoinsLeast (a : Analysis σ φ) (le : φ → φ → Prop) : Prop :=
  ∀ l : List φ, l ≠ [] →
    ∃ f, a.join l = .ok f ∧ (∀ x ∈ l, le x f) ∧ ∀ g, (∀ x ∈ l, le x g) → le f g

/-- Something flows into every node. -/
theorem exists_inflow (hjoin : a.JoinsLeast le) (v : View) (outs : NodeId → Option φ)
    (n : NodeId) : ∃ x, a.inflow v outs n = .ok x := by
  by_cases horigin : n = a.origin
  · subst horigin
    exact ⟨_, inflow_origin a v outs⟩
  by_cases hnone : (v.pred n).filterMap outs = []
  · exact ⟨_, inflow_initial horigin hnone⟩
  · obtain ⟨f, hf, -⟩ := hjoin _ hnone
    exact ⟨f, (inflow_join horigin hnone).trans hf⟩

/-- More flows in when more flows out, if the joins on both sides are bounds
and nothing is lost where the initial fact has been used. -/
theorem inflow_le_of_rises (hrefl : ∀ x, le x x) (htrans : ∀ x y z, le x y → le y z → le x z)
    (hrises : Rises le outs outs')
    (hstart : n ≠ a.origin → (v.pred n).filterMap outs = [] →
      (v.pred n).filterMap outs' = [] ∨ le a.initial x')
    (hleast : (v.pred n).filterMap outs ≠ [] → a.join ((v.pred n).filterMap outs) = .ok x →
      ∀ g, (∀ z ∈ (v.pred n).filterMap outs, le z g) → le x g)
    (habove : (v.pred n).filterMap outs' ≠ [] → a.join ((v.pred n).filterMap outs') = .ok x' →
      ∀ z ∈ (v.pred n).filterMap outs', le z x')
    (hx : a.inflow v outs n = .ok x) (hx' : a.inflow v outs' n = .ok x') : le x x' := by
  by_cases horigin : n = a.origin
  · subst horigin
    rw [inflow_origin] at hx hx'
    rw [← Except.ok.inj hx, ← Except.ok.inj hx']
    exact hrefl _
  by_cases hnone : (v.pred n).filterMap outs = []
  · rw [inflow_initial horigin hnone] at hx
    rw [← Except.ok.inj hx]
    rcases hstart horigin hnone with hnone' | hinitial
    · rw [inflow_initial horigin hnone'] at hx'
      rw [← Except.ok.inj hx']
      exact hrefl _
    · exact hinitial
  · have hmatch : ∀ z ∈ (v.pred n).filterMap outs,
        ∃ z' ∈ (v.pred n).filterMap outs', le z z' := by
      intro z hz
      obtain ⟨p, hp, hpz⟩ := List.mem_filterMap.1 hz
      obtain ⟨z', hz', hle⟩ := hrises p z hpz
      exact ⟨z', List.mem_filterMap.2 ⟨p, hp, hz'⟩, hle⟩
    have hsome : (v.pred n).filterMap outs' ≠ [] := by
      obtain ⟨z, hz⟩ := List.exists_mem_of_ne_nil _ hnone
      obtain ⟨z', hz', -⟩ := hmatch z hz
      exact List.ne_nil_of_mem hz'
    rw [inflow_join horigin hnone] at hx
    rw [inflow_join horigin hsome] at hx'
    refine hleast hnone hx x' fun z hz => ?_
    obtain ⟨z', hz', hle⟩ := hmatch z hz
    exact htrans z z' x' hle (habove hsome hx' z' hz')

/-- More flows in when more flows out, as long as no neighbour turns up
where the initial fact has been used. -/
theorem inflow_mono (hrefl : ∀ x, le x x) (htrans : ∀ x y z, le x y → le y z → le x z)
    (hjoin : a.JoinsLeast le) (hrises : Rises le outs outs')
    (hstart : n ≠ a.origin → (v.pred n).filterMap outs = [] →
      (v.pred n).filterMap outs' = [] ∨ ∀ y, le a.initial y)
    (hx : a.inflow v outs n = .ok x) (hx' : a.inflow v outs' n = .ok x') : le x x' := by
  refine inflow_le_of_rises hrefl htrans hrises ?_ ?_ ?_ hx hx'
  · exact fun horigin hnone => (hstart horigin hnone).imp_right fun hleast => hleast x'
  · intro hsome hok
    obtain ⟨f, hf, -, hleast⟩ := hjoin _ hsome
    rw [hf] at hok
    exact Except.ok.inj hok ▸ hleast
  · intro hsome hok
    obtain ⟨f, hf, habove, -⟩ := hjoin _ hsome
    rw [hf] at hok
    exact Except.ok.inj hok ▸ habove

theorem rises_update (hrefl : ∀ x, le x x) (h : ∀ x, outs n = some x → le x y) :
    Rises le outs (Function.update outs n (some y)) := by
  intro m x hm
  by_cases hmn : m = n
  · subst hmn
    exact ⟨y, Function.update_self _ _ _, h x hm⟩
  · exact ⟨x, by rw [Function.update_of_ne hmn, hm], hrefl x⟩

/-! ## Ascents -/

/-- What makes the facts of a run rise and not rise forever.  Assignments
that come up in the run are `Legal`; a node is `Ready` once enough of its
neighbours have facts, which they have by its turn in the order.  From legal
assignments, ready nodes compute facts that rise with what they are computed
from, and the rank of the fact of a node falls whenever the fact changes. -/
structure Ascent (a : Analysis σ φ) (v : View) (le : φ → φ → Prop) (rank : φ → Nat)
    (Legal : (NodeId → Option φ) → Prop) (Ready : (NodeId → Option φ) → NodeId → Prop) :
    Prop where
  refl : ∀ x, le x x
  trans : ∀ x y z, le x y → le y z → le x z
  legal_start : Legal fun _ => none
  ready_of_order : ∀ {front back : List NodeId} {n : NodeId} {outs : NodeId → Option φ},
    v.topologicalOrder = front ++ n :: back → (∀ m ∈ front, outs m ≠ none) → Ready outs n
  ready_mono : ∀ {outs outs' : NodeId → Option φ} {n : NodeId},
    Rises le outs outs' → Ready outs n → Ready outs' n
  advance : ∀ {outs : NodeId → Option φ} {n : NodeId}, Legal outs → n < v.size → Ready outs n →
    ∃ x y, a.Computes v outs n x y ∧ Legal (Function.update outs n (some y))
  mono : ∀ {outs outs' : NodeId → Option φ} {n : NodeId} {x x' y y' : φ}, Legal outs →
    Legal outs' → Rises le outs outs' → n < v.size → Ready outs n →
    a.Computes v outs n x y → a.Computes v outs' n x' y' → le y y'
  rank_lt : ∀ {outs : NodeId → Option φ} {n : NodeId} {x y : φ}, Legal outs →
    outs n = some x → Legal (Function.update outs n (some y)) → le x y → x ≠ y →
    rank y < rank x

/-- The invariant of a rising run: the fact of a node is at or below the one
that would be computed for it now. -/
structure Climbing (a : Analysis σ φ) (v : View) (le : φ → φ → Prop)
    (Legal : (NodeId → Option φ) → Prop) (Ready : (NodeId → Option φ) → NodeId → Prop)
    (outs : NodeId → Option φ) : Prop where
  legal : Legal outs
  inside : ∀ {n : NodeId} {x : φ}, outs n = some x → n < v.size
  ready : ∀ {n : NodeId} {x : φ}, outs n = some x → Ready outs n
  below : ∀ {n : NodeId} {x x' y : φ}, outs n = some x → a.Computes v outs n x' y → le x y

namespace Ascent

/-- One step: bringing a ready node up to date succeeds and keeps the
invariant, and if the fact of the node changes, its rank falls. -/
theorem step (h : a.Ascent v le rank Legal Ready) (hclimbing : a.Climbing v le Legal Ready outs)
    (hn : n < v.size) (hready : Ready outs n) :
    ∃ x y, a.Computes v outs n x y ∧
      a.Climbing v le Legal Ready (Function.update outs n (some y)) ∧
      ∀ old, outs n = some old → old ≠ y → rank y < rank old := by
  obtain ⟨x, y, hcomputes, hlegal⟩ := h.advance hclimbing.legal hn hready
  have hold : ∀ old, outs n = some old → le old y :=
    fun old hold => hclimbing.below hold hcomputes
  have hrises := rises_update h.refl hold
  refine ⟨x, y, hcomputes, ⟨hlegal, ?_, ?_, ?_⟩, fun old hsome hne =>
    h.rank_lt hclimbing.legal hsome hlegal (hold old hsome) hne⟩
  · intro m z hm
    by_cases hmn : m = n
    · exact hmn ▸ hn
    · rw [Function.update_of_ne hmn] at hm
      exact hclimbing.inside hm
  · intro m z hm
    by_cases hmn : m = n
    · exact h.ready_mono hrises (hmn ▸ hready)
    · rw [Function.update_of_ne hmn] at hm
      exact h.ready_mono hrises (hclimbing.ready hm)
  · intro m z z' w hm hcomputes'
    by_cases hmn : m = n
    · subst hmn
      rw [Function.update_self] at hm
      cases hm
      exact h.mono hclimbing.legal hlegal hrises hn hready hcomputes hcomputes'
    · rw [Function.update_of_ne hmn] at hm
      have hm_lt := hclimbing.inside hm
      obtain ⟨u, w', hbefore, -⟩ := h.advance hclimbing.legal hm_lt (hclimbing.ready hm)
      exact h.trans z w' w (hclimbing.below hm hbefore)
        (h.mono hclimbing.legal hlegal hrises hm_lt (hclimbing.ready hm) hbefore hcomputes')

/-! ## The rise of a whole pass -/

/-- How far the facts of all nodes together can still rise. -/
def total (rank : φ → Nat) (size : Nat) (outs : NodeId → Option φ) : Nat :=
  ∑ n ∈ Finset.range size, (outs n).elim 0 rank

private theorem total_update_lt {size : Nat} {old : φ} (hn : n < size) (hold : outs n = some old)
    (hrank : rank y < rank old) :
    total rank size (Function.update outs n (some y)) < total rank size outs := by
  refine Finset.sum_lt_sum (fun m _ => ?_) ⟨n, Finset.mem_range.2 hn, ?_⟩
  · by_cases hmn : m = n
    · subst hmn
      rw [Function.update_self, hold]
      exact Nat.le_of_lt hrank
    · rw [Function.update_of_ne hmn]
  · rw [Function.update_self, hold]
    exact hrank

/-- Every node has a fact. -/
def Complete (size : Nat) (outs : NodeId → Option φ) : Prop := ∀ n < size, outs n ≠ none

theorem ne_none_update {m : NodeId} (h : outs m ≠ none) :
    Function.update outs n (some y) m ≠ none := by
  by_cases hmn : m = n
  · subst hmn
    simp
  · rwa [Function.update_of_ne hmn]

/-- Where all nodes have facts, an update that changes the fact of its node
uses up some of the total. -/
private theorem total_updated (hupdated : a.Updated v v.size s s' n x y) (hn : n < v.size)
    (hcomplete : Complete v.size s.facts.out?)
    (hrank : ∀ old, s.facts.out? n = some old → old ≠ y → rank y < rank old) :
    Complete v.size s'.facts.out? ∧
      total rank v.size s'.facts.out? ≤ total rank v.size s.facts.out? ∧
      (s'.changed = true → s.changed = true ∨
        total rank v.size s'.facts.out? < total rank v.size s.facts.out?) := by
  have hcomplete' : Complete v.size s'.facts.out? := by
    intro m hm
    rw [hupdated.out?]
    exact ne_none_update (hcomplete m hm)
  obtain ⟨old, hold⟩ := Option.ne_none_iff_exists'.1 (hcomplete n hn)
  by_cases hsame : old = y
  · have hout : s'.facts.out? = s.facts.out? := by
      rw [hupdated.out?, ← hsame]
      exact Function.update_eq_self_iff.2 hold.symm
    refine ⟨hcomplete', by rw [hout], fun hchanged => ?_⟩
    exact .inl ((hupdated.changed.1 hchanged).resolve_right (by simp [hold, hsame]))
  · have hfall : total rank v.size s'.facts.out? < total rank v.size s.facts.out? := by
      rw [hupdated.out?]
      exact total_update_lt hn hold (hrank old hold hsame)
    exact ⟨hcomplete', Nat.le_of_lt hfall, fun _ => .inr hfall⟩

/-- The rest of a pass.  The nodes before it have their facts; once all nodes
have facts, the total falls whenever a fact changes. -/
private theorem foldlM_ok (h : a.Ascent v le rank Legal Ready) (ha : a.Plain)
    (back : List NodeId) :
    ∀ {front : List NodeId} {s : State σ φ}, v.topologicalOrder = front ++ back →
      s.facts.Fits v.size → (∀ m ∈ front, s.facts.out? m ≠ none) →
      a.Climbing v le Legal Ready s.facts.out? →
      ∃ s', back.foldlM (a.update v) s = .ok s' ∧ s'.facts.Fits v.size ∧
        (∀ m ∈ front ++ back, s'.facts.out? m ≠ none) ∧
        a.Climbing v le Legal Ready s'.facts.out? ∧
        (Complete v.size s.facts.out? →
          total rank v.size s'.facts.out? ≤ total rank v.size s.facts.out? ∧
          (s'.changed = true → s.changed = true ∨
            total rank v.size s'.facts.out? < total rank v.size s.facts.out?)) := by
  induction back with
  | nil =>
      intro front s _ hfits hfront hclimbing
      exact ⟨s, rfl, hfits, by rwa [List.append_nil], hclimbing,
        fun _ => ⟨Nat.le_refl _, Or.inl⟩⟩
  | cons n back ih =>
      intro front s horder hfits hfront hclimbing
      have hn : n < v.size := View.mem_topologicalOrder.1 (by rw [horder]; simp)
      obtain ⟨x, y, hcomputes, hclimbing₁, hrank⟩ :=
        h.step hclimbing hn (h.ready_of_order horder hfront)
      obtain ⟨s₁, hs₁, hupdated⟩ := update_of_computes ha hfits hn hcomputes
      rw [← hupdated.out?] at hclimbing₁
      have hfront₁ : ∀ m ∈ front ++ [n], s₁.facts.out? m ≠ none := by
        intro m hm
        rw [hupdated.out?]
        rcases List.mem_append.1 hm with hm | hm
        · exact ne_none_update (hfront m hm)
        · rw [List.mem_singleton.1 hm]
          simp
      have horder₁ : v.topologicalOrder = (front ++ [n]) ++ back := by rw [horder]; simp
      obtain ⟨s', hs', hfits', hall, hclimbing', htotal⟩ :=
        ih horder₁ hupdated.fits hfront₁ hclimbing₁
      refine ⟨s', ?_, hfits', by simpa using hall, hclimbing', fun hcomplete => ?_⟩
      · rw [List.foldlM_cons, hs₁]
        exact hs'
      · obtain ⟨hcomplete₁, hle₁, hchanged₁⟩ := total_updated hupdated hn hcomplete hrank
        obtain ⟨hle, hchanged⟩ := htotal hcomplete₁
        refine ⟨by omega, fun hc => ?_⟩
        rcases hchanged hc with hc₁ | hlt
        · exact (hchanged₁ hc₁).imp_right fun hlt => by omega
        · exact .inr (by omega)

/-- One pass succeeds, leaves every node with a fact and keeps the invariant;
if every node had a fact before and something changes, the total falls. -/
theorem pass_ok (h : a.Ascent v le rank Legal Ready) (ha : a.Plain)
    (hfits : s.facts.Fits v.size) (hclimbing : a.Climbing v le Legal Ready s.facts.out?) :
    ∃ s', a.pass v v.topologicalOrder s = .ok s' ∧ s'.facts.Fits v.size ∧
      Complete v.size s'.facts.out? ∧ a.Climbing v le Legal Ready s'.facts.out? ∧
      (Complete v.size s.facts.out? → s'.changed = true →
        total rank v.size s'.facts.out? < total rank v.size s.facts.out?) := by
  have hstart : ({ s with changed := false } : State σ φ).facts.Fits v.size := hfits
  obtain ⟨s', hs', hfits', hall, hclimbing', htotal⟩ :=
    h.foldlM_ok ha v.topologicalOrder (List.nil_append _).symm hstart
      (fun m hm => absurd hm List.not_mem_nil) hclimbing
  refine ⟨s', hs', hfits', fun n hn => hall n (View.mem_topologicalOrder.2 hn), hclimbing',
    fun hcomplete hchanged => ?_⟩
  exact ((htotal hcomplete).2 hchanged).resolve_left (by simp)

/-- Once every node has a fact, the passes end before the total is used
up. -/
theorem iterate_ok (h : a.Ascent v le rank Legal Ready) (ha : a.Plain) {limit : Nat}
    (remaining : Nat) :
    ∀ {passes : Nat} {s : State σ φ}, s.facts.Fits v.size →
      a.Climbing v le Legal Ready s.facts.out? → Complete v.size s.facts.out? →
      total rank v.size s.facts.out? < remaining →
      ∃ s', (a.iterate v v.topologicalOrder limit remaining passes s).result = .ok s' ∧
        Legal s'.facts.out? := by
  induction remaining with
  | zero => intro passes s _ _ _ hlt; omega
  | succ remaining ih =>
      intro passes s hfits hclimbing hcomplete hlt
      obtain ⟨s₁, hs₁, hfits₁, hcomplete₁, hclimbing₁, hfall⟩ := h.pass_ok ha hfits hclimbing
      simp only [iterate, hs₁]
      by_cases hchanged : s₁.changed = true
      · rw [if_pos hchanged]
        have hless := hfall hcomplete hchanged
        exact ih hfits₁ hclimbing₁ hcomplete₁ (by omega)
      · rw [if_neg hchanged]
        exact ⟨s₁, rfl, hclimbing₁.legal⟩

/-- **A rising run settles.**  The bound is how far the facts of the first
pass can still rise; it depends on the graph and the analysis alone. -/
theorem solve_ok {c : Cfg} (h : a.Ascent (a.orient c.view) le rank Legal Ready) (ha : a.Plain)
    (memory : σ) :
    ∃ first, Legal first ∧ ∀ config : Config,
      total rank c.size first + 2 ≤ config.maxIterations →
      ∃ s outs, a.solve c config memory = .ok s ∧ Legal outs ∧
        ∀ n < c.size, s.flowOut? a.direction n = outs n := by
  have hsize : (a.orient c.view).size = c.size := a.size_orient c.view
  have hblank : (blank c.size memory : State σ φ).facts.Fits (a.orient c.view).size := by
    rw [hsize]
    exact fits_blank c.size memory
  have hstart : a.Climbing (a.orient c.view) le Legal Ready
      (blank c.size memory : State σ φ).facts.out? := by
    rw [out?_blank]
    exact ⟨h.legal_start, nofun, nofun, nofun⟩
  obtain ⟨s₁, hs₁, hfits₁, hcomplete₁, hclimbing₁, -⟩ := h.pass_ok ha hblank hstart
  refine ⟨s₁.facts.out?, hclimbing₁.legal, fun config hlimit => ?_⟩
  rw [← hsize] at hlimit
  obtain ⟨last, hlast, hlegal⟩ : ∃ last,
      (a.run c config.maxIterations memory).result = .ok last ∧ Legal last.facts.out? := by
    obtain ⟨remaining, hremaining⟩ : ∃ remaining, config.maxIterations = remaining + 1 :=
      ⟨config.maxIterations - 1, by omega⟩
    rw [run_eq, hremaining]
    simp only [iterate, hs₁]
    by_cases hchanged : s₁.changed = true
    · rw [if_pos hchanged]
      exact h.iterate_ok ha remaining hfits₁ hclimbing₁ hcomplete₁ (by omega)
    · rw [if_neg hchanged]
      exact ⟨s₁, rfl, hclimbing₁.legal⟩
  refine ⟨_, last.facts.out?, solve_eq_ok_iff.2 ⟨last, hlast, rfl⟩, hlegal, fun n hn => ?_⟩
  exact (Solution.read_ofState a.direction c.size _ last hn).2

/-- Some number of passes is enough, however many more are allowed. -/
theorem exists_bound {c : Cfg} (h : a.Ascent (a.orient c.view) le rank Legal Ready) (ha : a.Plain)
    (memory : σ) :
    ∃ bound, ∀ config : Config, bound ≤ config.maxIterations →
      ∃ s, a.solve c config memory = .ok s := by
  obtain ⟨first, -, hsolve⟩ := h.solve_ok ha memory
  refine ⟨total rank c.size first + 2, fun config hlimit => ?_⟩
  obtain ⟨s, -, hs, -⟩ := hsolve config hlimit
  exact ⟨s, hs⟩

end Ascent

/-! ## Monotone analyses -/

section Monotone

variable [PartialOrder φ] {c : Cfg} {config : Config} {memory : σ} {height : Nat}

/-- The analysis is monotone on the nodes of a graph: joins are least upper
bounds, the initial fact lies below all others, and transfers never fail and
keep the order. -/
structure MonotoneFlow (a : Analysis σ φ) (size : Nat) : Prop where
  join_lub : ∀ l : List φ, l ≠ [] → ∃ f, a.join l = .ok f ∧ IsLUB {x | x ∈ l} f
  initial_le : ∀ x, a.initial ≤ x
  transfer_ok : ∀ n < size, ∀ m x, ∃ y, a.flow m n x = .ok y
  transfer_mono : ∀ n < size, ∀ m x x' y y', x ≤ x' → a.flow m n x = .ok y →
    a.flow m n x' = .ok y' → y ≤ y'

theorem MonotoneFlow.joinsLeast {size : Nat} (h : a.MonotoneFlow size) :
    a.JoinsLeast (· ≤ ·) := by
  intro l hl
  obtain ⟨f, hf, hlub⟩ := h.join_lub l hl
  exact ⟨f, hf, fun x hx => hlub.1 hx, fun g hg => hlub.2 fun x hx => hg x hx⟩

/-- The assignment is at or below every solution of the equations. -/
def BelowSolutions (a : Analysis σ φ) (v : View) (outs : NodeId → Option φ) : Prop :=
  ∀ sin sout : NodeId → φ, a.Solves v sin sout →
    ∀ n x, n < v.size → outs n = some x → x ≤ sout n

/-- What flows into a node from facts below a solution is below what flows
in there. -/
private theorem inflow_le (h : a.MonotoneFlow v.size) (hv : v.Linked)
    (hbelow : a.BelowSolutions v outs) {sin sout : NodeId → φ} (hsol : a.Solves v sin sout)
    (hn : n < v.size) (hx : a.inflow v outs n = .ok x) : x ≤ sin n := by
  rcases inflow_cases hx with ⟨rfl, rfl⟩ | ⟨-, -, rfl⟩ | ⟨horigin, hknown, hjoin⟩
  · rw [hsol.boundary]
  · exact h.initial_le _
  · have hpred : v.pred n ≠ [] := by
      intro hpred
      exact hknown (by rw [hpred]; rfl)
    obtain ⟨f, hf, hlub⟩ := h.join_lub _ hknown
    obtain ⟨g, hg, hlub'⟩ := h.join_lub ((v.pred n).map sout) (by simpa using hpred)
    have hgin : g = sin n := Except.ok.inj (hg.symm.trans (hsol.join n hn horigin hpred))
    have hfx : f = x := Except.ok.inj (hf.symm.trans hjoin)
    rw [← hfx, ← hgin]
    refine hlub.2 fun z hz => ?_
    obtain ⟨p, hp, hpz⟩ := List.mem_filterMap.1 hz
    have hp_lt : p < v.size := hv.source_lt (hv.mem_pred.1 hp)
    exact (hbelow sin sout hsol p z hp_lt hpz).trans
      (hlub'.1 (List.mem_map.2 ⟨p, hp, rfl⟩))

/-- A strict rise costs a step of every chain above. -/
private theorem coheight_toNat_lt (hheight : ∀ p : LTSeries φ, p.length ≤ height)
    (hlt : x < y) : (Order.coheight y).toNat < (Order.coheight x).toNat := by
  have hfinite : ∀ z : φ, Order.coheight z ≠ ⊤ := by
    intro z
    refine ne_top_of_le_ne_top (ENat.natCast_ne_top height) (Order.coheight_le fun p _ => ?_)
    exact_mod_cast hheight p
  have hfall := Order.coheight_strictAnti hlt (lt_top_iff_ne_top.2 (hfinite y))
  rw [← ENat.natCast_toNat (hfinite x), ← ENat.natCast_toNat (hfinite y)] at hfall
  exact_mod_cast hfall

/-- A monotone analysis over facts of bounded height rises.  The initial fact
lies below all others, so every node is ready at once. -/
private theorem MonotoneFlow.ascent (h : a.MonotoneFlow v.size) (ha : a.Plain) (hv : v.Linked)
    (hheight : ∀ p : LTSeries φ, p.length ≤ height) (memory : σ) :
    a.Ascent v (· ≤ ·) (fun x => (Order.coheight x).toNat) (a.BelowSolutions v)
      (fun _ _ => True) where
  refl := le_refl
  trans _ _ _ := le_trans
  legal_start := by
    intro sin sout _ n x _ hnone
    cases hnone
  ready_of_order _ _ := trivial
  ready_mono _ _ := trivial
  advance := by
    intro outs n hbelow hn _
    obtain ⟨x, hx⟩ := exists_inflow h.joinsLeast v outs n
    obtain ⟨y, hy⟩ := h.transfer_ok n hn memory x
    have hflow : ∀ m, a.flow m n x = .ok y := fun m => (ha.stateless m memory n x).trans hy
    refine ⟨x, y, ⟨hx, hflow⟩, fun sin sout hsol m z hm hz => ?_⟩
    by_cases hmn : m = n
    · subst hmn
      rw [Function.update_self] at hz
      cases hz
      exact h.transfer_mono m hm memory x (sin m) y (sout m)
        (inflow_le h hv hbelow hsol hm hx) hy (hsol.transfer m hm memory)
    · rw [Function.update_of_ne hmn] at hz
      exact hbelow sin sout hsol m z hm hz
  mono := by
    intro outs outs' n x x' y y' _ _ hrises hn _ hcomputes hcomputes'
    have hle : x ≤ x' := inflow_mono le_refl (fun _ _ _ => le_trans) h.joinsLeast hrises
      (fun _ _ => .inr h.initial_le) hcomputes.inflow hcomputes'.inflow
    exact h.transfer_mono n hn memory x x' y y' hle (hcomputes.flow memory)
      (hcomputes'.flow memory)
  rank_lt := by
    intro outs n x y _ _ _ hle hne
    exact coheight_toNat_lt hheight (lt_of_le_of_ne hle hne)

private theorem total_le (hheight : ∀ p : LTSeries φ, p.length ≤ height) (size : Nat)
    (outs : NodeId → Option φ) :
    Ascent.total (fun x => (Order.coheight x).toNat) size outs ≤ size * height := by
  have hterm : ∀ n ∈ Finset.range size,
      (outs n).elim 0 (fun x => (Order.coheight x).toNat) ≤ height := by
    intro n _
    cases outs n with
    | none => exact Nat.zero_le _
    | some x =>
        refine ENat.toNat_le_of_le_natCast (Order.coheight_le fun p _ => ?_)
        exact_mod_cast hheight p
  have hsum := Finset.sum_le_card_nsmul _ _ _ hterm
  rwa [Finset.card_range, smul_eq_mul] at hsum

/-- **Monotone analyses have a least solution, and the solver finds it.**  If
no strictly rising chain of facts has more than `height` steps, then
`N * height + 2` passes are enough for a graph of `N` nodes, and what flows
out of each node lies below what any other solution of the equations says. -/
theorem solve_least (ha : a.Plain) (hmono : a.MonotoneFlow c.size) (hc : c.graph.Built)
    (hexit : Cfg.exit < c.size) (hheight : ∀ p : LTSeries φ, p.length ≤ height)
    (hlimit : c.size * height + 2 ≤ config.maxIterations) (memory : σ) :
    ∃ s ins outs, a.solve c config memory = .ok s ∧ a.Solves (a.orient c.view) ins outs ∧
      (∀ n < c.size, s.flowIn? a.direction n = some (ins n) ∧
        s.flowOut? a.direction n = some (outs n)) ∧
      ∀ ins' outs' : NodeId → φ, a.Solves (a.orient c.view) ins' outs' →
        ∀ n < c.size, outs n ≤ outs' n := by
  have hsize : (a.orient c.view).size = c.size := a.size_orient c.view
  have hmono' : a.MonotoneFlow (a.orient c.view).size := by rwa [hsize]
  have hascent := hmono'.ascent ha (a.linked_orient hc.linked) hheight memory
  obtain ⟨first, -, hsolve⟩ := hascent.solve_ok ha memory
  have htotal := total_le hheight c.size first
  obtain ⟨s, known, hs, hbelow, hknown⟩ := hsolve config (by omega)
  obtain ⟨ins, outs, hsolves, hfacts⟩ := exists_solves_of_solve ha hc hexit hs
  refine ⟨s, ins, outs, hs, hsolves, hfacts, fun ins' outs' hsol n hn => ?_⟩
  refine hbelow ins' outs' hsol n (outs n) (by rw [hsize]; exact hn) ?_
  rw [← hknown n hn]
  exact (hfacts n hn).2

/-- Which nodes the entry reaches. -/
def reached : Analysis Unit Bool where
  name := "reached"
  direction := .forward
  boundary := true
  initial := false
  join facts := .ok (facts.any id)
  transfer _ _ fact := .ok (fact, ())
  same x y := x == y

private theorem monotoneFlow_reached (size : Nat) : reached.MonotoneFlow size where
  join_lub := by
    intro l _
    refine ⟨_, rfl, fun x hx => ?_, fun y hy => ?_⟩
    · cases x with
      | false => exact Bool.false_le _
      | true => exact (List.any_eq_true.2 ⟨true, hx, rfl⟩).ge
    · cases hany : l.any id with
      | false => exact Bool.false_le y
      | true =>
          obtain ⟨x, hx, htrue⟩ := List.any_eq_true.1 hany
          exact htrue ▸ hy hx
  initial_le := Bool.false_le
  transfer_ok _ _ _ x := ⟨x, rfl⟩
  transfer_mono := by
    intro n _ m x x' y y' hle hy hy'
    cases hy
    cases hy'
    exact hle

/-- Truth values have height 1, so the five nodes of the loop are settled
after seven passes. -/
theorem solve_least_reached :
    copyLoopGraph.size * 1 + 2 = 7 ∧
      ∃ s ins outs, reached.solve copyLoopGraph ⟨7, true, true⟩ () = .ok s ∧
        reached.Solves copyLoopGraph.view ins outs ∧
        (∀ n < copyLoopGraph.size, s.input? n = some (ins n) ∧ s.output? n = some (outs n)) ∧
        ∀ ins' outs' : NodeId → Bool, reached.Solves copyLoopGraph.view ins' outs' →
          ∀ n < copyLoopGraph.size, outs n ≤ outs' n := by
  have hwired : copyLoopGraph.Wired := Cfg.Layout.wired rfl
  have hsize : copyLoopGraph.size * 1 + 2 = 7 := by decide +kernel
  refine ⟨hsize, ?_⟩
  exact solve_least ⟨fun _ _ _ _ => rfl, fun _ _ => beq_iff_eq⟩
    (monotoneFlow_reached copyLoopGraph.size) hwired.built hwired.exit_lt
    (fun p => Nat.le_of_lt_succ (LTSeries.length_lt_card p)) (Nat.le_of_eq hsize) ()

end Monotone

end Analysis

end MethodFlow
