import Mathlib.Data.List.Forall2
import Mathlib.Logic.Function.Iterate
import Mathlib.Tactic.ByContra
import MethodFlow.Graph.Dominators

/-!
# Sweeps that narrow dominator sets

The computation of dominators sweeps over the nodes and narrows one set
after the other, each sweep seeing the sets that it has narrowed already.
One equivalence says all that a single narrowing does (`among_refineAt`);
everything else about a sweep follows from it by induction over the nodes of
the sweep.

A sweep only takes nodes out of the sets, so one that changes something
lowers their weight: the sweeps end, and the test on the weight stops at the
first sweep that changes nothing.

The narrowing keeps what the set held before.  A set computed afresh, from
all nodes, would come out the same at every step of the run, because no set
is ever below what the predecessors of its node leave.

## Main results

* `Dominators.among_refineAt`: what one narrowing does.
* `Dominators.settle_spec`: the run ends at the first sweep that changes
  nothing.
* `Dominators.sweep_iterate_eq_recompute`: narrowing and computing afresh
  agree, sweep by sweep.
-/

namespace MethodFlow

/-! ## Bit sets filled from a list -/

namespace BitSet

theorem contains_foldl_add {l : List Nat} {s : BitSet} {i : Nat} :
    (l.foldl add s).contains i = true ↔
      s.contains i = true ∨ (i ∈ l ∧ i < s.capacity) := by
  induction l generalizing s with
  | nil => simp
  | cons a rest ih =>
      rw [List.foldl_cons, ih, capacity_add, contains_add, List.mem_cons]
      by_cases hi : i = a
      · subst hi
        by_cases hlt : i < s.capacity <;> simp [hlt]
      · simp [hi]

theorem capacity_foldl_add (l : List Nat) (s : BitSet) :
    (l.foldl add s).capacity = s.capacity := by
  induction l generalizing s with
  | nil => rfl
  | cons a rest ih => rw [List.foldl_cons, ih, capacity_add]

theorem nodup_toList (s : BitSet) : s.toList.Nodup := by
  rw [toList_eq_filter]
  exact List.nodup_range.filter _

theorem bits_le_of_contains {s t : BitSet}
    (h : ∀ i, s.contains i = true → t.contains i = true) : s.bits ≤ t.bits := by
  have hand : s.bits &&& t.bits = s.bits := by
    apply Nat.eq_of_testBit_eq
    intro i
    have hi := h i
    simp only [contains] at hi
    rw [Nat.testBit_and]
    cases hs : s.bits.testBit i with
    | false => rfl
    | true => rw [hi hs]; rfl
  rw [← hand]
  exact Nat.and_le_right

end BitSet

namespace Dominators

variable {size node a b : Nat} {preds : List NodeId} {sets : Array BitSet}
  {links : List (NodeId × List NodeId)}

/-! ## One narrowing -/

/-- One set for each node, each with room for all nodes and its own node in
it. -/
structure Kept (size : Nat) (sets : Array BitSet) : Prop where
  size_eq : sets.size = size
  capacity_eq : ∀ {i : Nat} {s : BitSet}, sets[i]? = some s → s.capacity = size
  self_mem : ∀ {i : Nat}, i < size → among sets i i = true

theorem among_iff : among sets a b = true ↔ ∃ s, sets[b]? = some s ∧ s.contains a = true := by
  unfold among
  cases sets[b]? <;> simp

theorem Kept.exists_set (hk : Kept size sets) (hb : b < size) :
    ∃ s, sets[b]? = some s :=
  ⟨_, Array.getElem?_eq_getElem (hk.size_eq ▸ hb)⟩

theorem Kept.lt_of_among (hk : Kept size sets) (h : among sets a b = true) :
    a < size ∧ b < size := by
  obtain ⟨s, hs, ha⟩ := among_iff.1 h
  have hlt := BitSet.lt_capacity_of_contains ha
  rw [hk.capacity_eq hs] at hlt
  obtain ⟨hb, -⟩ := Array.getElem?_eq_some_iff.1 hs
  exact ⟨hlt, hk.size_eq ▸ hb⟩

private theorem contains_foldl_meet (hk : Kept size sets)
    (hpreds : ∀ p ∈ preds, p < size) (old : BitSet) :
    (preds.foldl (fun common p => common.meet (sets.getD p common)) old).contains a
        = true ↔
      old.contains a = true ∧ ∀ p ∈ preds, among sets a p = true := by
  induction preds generalizing old with
  | nil => simp
  | cons p rest ih =>
      obtain ⟨s, hs⟩ := hk.exists_set (hpreds p List.mem_cons_self)
      have hrest : ∀ q ∈ rest, q < size := fun q hq => hpreds q (List.mem_cons_of_mem _ hq)
      have hp : among sets a p = s.contains a := by simp only [among, hs]
      have hget : sets.getD p old = s := by simp [Array.getD_eq_getD_getElem?, hs]
      rw [List.foldl_cons, hget, ih hrest, BitSet.contains_meet, Bool.and_eq_true,
        List.forall_mem_cons, hp]
      exact and_assoc

private theorem capacity_foldl_meet (old : BitSet) :
    (preds.foldl (fun common p => common.meet (sets.getD p common)) old).capacity =
      old.capacity := by
  induction preds generalizing old with
  | nil => rfl
  | cons p rest ih => rw [List.foldl_cons, ih, BitSet.capacity_meet]

private theorem kept_setIfInBounds (hk : Kept size sets) {s : BitSet}
    (hcap : s.capacity = size) (hself : node < size → s.contains node = true) :
    Kept size (sets.setIfInBounds node s) where
  size_eq := by rw [Array.size_setIfInBounds, hk.size_eq]
  capacity_eq := by
    intro i t ht
    rw [Array.getElem?_setIfInBounds] at ht
    split at ht
    · split at ht
      · cases ht
        exact hcap
      · cases ht
    · exact hk.capacity_eq ht
  self_mem := by
    intro i hi
    by_cases hn : node = i
    · subst hn
      refine among_iff.2 ⟨s, ?_, hself hi⟩
      rw [Array.getElem?_setIfInBounds_self_of_lt (hk.size_eq ▸ hi)]
    · obtain ⟨t, ht, hmem⟩ := among_iff.1 (hk.self_mem hi)
      exact among_iff.2 ⟨t, by rw [Array.getElem?_setIfInBounds_ne hn, ht], hmem⟩

private theorem among_setIfInBounds (hk : Kept size sets) (hnode : node < size)
    (s : BitSet) :
    among (sets.setIfInBounds node s) a b =
      if b = node then s.contains a else among sets a b := by
  unfold among
  by_cases hb : b = node
  · subst hb
    rw [Array.getElem?_setIfInBounds_self_of_lt (hk.size_eq ▸ hnode), if_pos rfl]
  · rw [Array.getElem?_setIfInBounds_ne (fun h => hb h.symm), if_neg hb]

private theorem refineAt_eq {old : BitSet} (hold : sets[node]? = some old) :
    refineAt sets (node, preds) = sets.setIfInBounds node (refined sets node preds old) := by
  simp only [refineAt, hold]

/-- **One narrowing**: the set of the node keeps the node itself and what
the sets of all its predecessors hold; nothing else changes. -/
theorem among_refineAt (hk : Kept size sets) (hnode : node < size)
    (hpreds : ∀ p ∈ preds, p < size) :
    among (refineAt sets (node, preds)) a b = true ↔
      among sets a b = true ∧
        (b = node → a = node ∨ ∀ p ∈ preds, among sets a p = true) := by
  obtain ⟨old, hold⟩ := hk.exists_set hnode
  have hself := hk.self_mem hnode
  have hamong : among sets a node = old.contains a := by simp only [among, hold]
  rw [refineAt_eq hold, among_setIfInBounds hk hnode]
  by_cases hb : b = node
  · subst hb
    have hcap := hk.capacity_eq hold
    rw [if_pos rfl, refined, BitSet.contains_add, capacity_foldl_meet, hcap, Bool.or_eq_true,
      contains_foldl_meet hk hpreds, hamong]
    by_cases ha : a = b
    · subst ha
      rw [hamong] at hself
      simp [hself, hnode]
    · simp [ha]
  · simp [hb]

theorem Kept.refineAt (hk : Kept size sets) (hnode : node < size) :
    Kept size (refineAt sets (node, preds)) := by
  obtain ⟨old, hold⟩ := hk.exists_set hnode
  have hcap := hk.capacity_eq hold
  rw [refineAt_eq hold]
  refine kept_setIfInBounds hk ?_ fun _ => ?_
  · rw [refined, BitSet.capacity_add, capacity_foldl_meet, hcap]
  · rw [refined, BitSet.contains_add, capacity_foldl_meet, hcap]
    simp [hnode]

/-- Sets of one graph that hold the same nodes are the same. -/
theorem Kept.ext {sets' : Array BitSet} (hk : Kept size sets) (hk' : Kept size sets')
    (h : ∀ a b, among sets a b = true ↔ among sets' a b = true) : sets = sets' := by
  apply Array.ext_getElem?
  intro i
  by_cases hi : i < size
  · obtain ⟨s, hs⟩ := hk.exists_set hi
    obtain ⟨s', hs'⟩ := hk'.exists_set hi
    have hcap : s.capacity = s'.capacity := by
      rw [hk.capacity_eq hs, hk'.capacity_eq hs']
    rw [hs, hs', BitSet.ext_contains hcap fun j => ?_]
    have hj := h j i
    simp only [among, hs, hs'] at hj
    exact Bool.eq_iff_iff.2 hj
  · rw [Array.getElem?_eq_none (by rw [hk.size_eq]; omega),
      Array.getElem?_eq_none (by rw [hk'.size_eq]; omega)]

/-! ## One sweep -/

/-- The nodes of the links and their predecessors are nodes of a graph with
`size` nodes. -/
def LinksWithin (size : Nat) (links : List (NodeId × List NodeId)) : Prop :=
  ∀ link ∈ links, link.1 < size ∧ ∀ p ∈ link.2, p < size

theorem LinksWithin.tail {link : NodeId × List NodeId}
    (h : LinksWithin size (link :: links)) : LinksWithin size links :=
  fun l hl => h l (List.mem_cons_of_mem _ hl)

/-- What every single narrowing keeps, a sweep keeps. -/
theorem sweep_induction {P : Array BitSet → Prop} (hlinks : LinksWithin size links)
    (hk : Kept size sets) (hP : P sets)
    (hstep : ∀ sets, Kept size sets → P sets →
      ∀ link ∈ links, P (refineAt sets link)) :
    Kept size (sweep links sets) ∧ P (sweep links sets) := by
  unfold sweep
  induction links generalizing sets with
  | nil => exact ⟨hk, hP⟩
  | cons link rest ih =>
      obtain ⟨hnode, -⟩ := hlinks link List.mem_cons_self
      have hnext := hstep sets hk hP link List.mem_cons_self
      exact ih hlinks.tail (hk.refineAt hnode) hnext fun sets hk hP l hl =>
        hstep sets hk hP l (List.mem_cons_of_mem _ hl)

theorem Kept.sweep (hk : Kept size sets) (hlinks : LinksWithin size links) :
    Kept size (sweep links sets) :=
  (sweep_induction (P := fun _ => True) hlinks hk trivial fun _ _ _ _ _ => trivial).1

/-- A sweep only takes nodes out of the sets. -/
theorem among_of_among_sweep (hk : Kept size sets) (hlinks : LinksWithin size links)
    (h : among (sweep links sets) a b = true) : among sets a b = true := by
  have hsub := sweep_induction
    (P := fun next => among next a b = true → among sets a b = true) hlinks hk id ?_
  · exact hsub.2 h
  · intro next hnext ih link hlink hafter
    obtain ⟨hnode, hpreds⟩ := hlinks link hlink
    exact ih ((among_refineAt hnext hnode hpreds).1 hafter).1

/-- Where a whole sweep changes nothing, no narrowing in it does. -/
theorem refineAt_eq_of_sweep_eq (hk : Kept size sets) (hlinks : LinksWithin size links)
    (hfix : sweep links sets = sets) : ∀ link ∈ links, refineAt sets link = sets := by
  induction links generalizing sets with
  | nil => intro link hlink; exact absurd hlink (by simp)
  | cons first rest ih =>
      obtain ⟨hnode, hpreds⟩ := hlinks first List.mem_cons_self
      have hnext : Kept size (refineAt sets first) := hk.refineAt hnode
      have hfirst : refineAt sets first = sets := by
        refine hnext.ext hk fun a b => ⟨fun h => ?_, fun h => ?_⟩
        · exact ((among_refineAt hk hnode hpreds).1 h).1
        · rw [← hfix] at h
          exact among_of_among_sweep hnext hlinks.tail h
      have hrest : sweep rest sets = sets := by
        have hunfold : sweep (first :: rest) sets = sweep rest (refineAt sets first) := rfl
        rw [hunfold, hfirst] at hfix
        exact hfix
      intro link hlink
      rcases List.mem_cons.1 hlink with rfl | hlink
      · exact hfirst
      · exact ih hk hlinks.tail hrest link hlink

/-! ## The weight falls with every sweep that changes something -/

private theorem foldr_bits_le {xs ys : List BitSet}
    (h : List.Forall₂ (fun x y => x.bits ≤ y.bits) xs ys) :
    xs.foldr (fun s n => s.bits + n) 0 ≤ ys.foldr (fun s n => s.bits + n) 0 ∧
      (xs.foldr (fun s n => s.bits + n) 0 = ys.foldr (fun s n => s.bits + n) 0 →
        xs.map BitSet.bits = ys.map BitSet.bits) := by
  induction h with
  | nil => exact ⟨Nat.le_refl _, fun _ => rfl⟩
  | @cons x y xs ys hxy _ ih =>
      obtain ⟨hle, heq⟩ := ih
      simp only [List.foldr_cons]
      refine ⟨by omega, fun hsum => ?_⟩
      have hx : x.bits = y.bits := by omega
      rw [List.map_cons, List.map_cons, hx, heq (by omega)]

private theorem forall₂_of_among {sets' : Array BitSet} (hk : Kept size sets)
    (hk' : Kept size sets')
    (h : ∀ a b, among sets' a b = true → among sets a b = true) :
    List.Forall₂ (fun x y : BitSet => x.bits ≤ y.bits) sets'.toList sets.toList := by
  rw [List.forall₂_iff_get]
  refine ⟨by simp [hk.size_eq, hk'.size_eq], fun i hi hi' => ?_⟩
  have hs : sets[i]? = some (sets.toList.get ⟨i, hi'⟩) := by simp
  have hs' : sets'[i]? = some (sets'.toList.get ⟨i, hi⟩) := by simp
  refine BitSet.bits_le_of_contains fun j hj => ?_
  have hj' := h j i (among_iff.2 ⟨_, hs', hj⟩)
  simpa only [among, hs] using hj'

/-- The test on the weight tells whether a sweep has changed something. -/
theorem weight_sweep (hk : Kept size sets) (hlinks : LinksWithin size links) :
    weight (sweep links sets) < weight sets ↔ sweep links sets ≠ sets := by
  have hk' := hk.sweep hlinks
  have hsub : ∀ a b, among (sweep links sets) a b = true → among sets a b = true :=
    fun a b => among_of_among_sweep hk hlinks
  obtain ⟨hle, heq⟩ := foldr_bits_le (forall₂_of_among hk hk' hsub)
  constructor
  · intro hlt hfix
    rw [hfix] at hlt
    exact Nat.lt_irrefl _ hlt
  · intro hne
    refine Nat.lt_of_le_of_ne hle fun hsum => hne (hk'.ext hk fun a b => ?_)
    refine ⟨hsub a b, fun h => ?_⟩
    obtain ⟨s, hs, ha⟩ := among_iff.1 h
    obtain ⟨-, hb⟩ := hk.lt_of_among h
    obtain ⟨s', hs'⟩ := hk'.exists_set hb
    have hbits : s'.bits = s.bits := by
      have hget := congrArg (·[b]?) (heq hsum)
      simpa [hs, hs'] using hget
    refine among_iff.2 ⟨s', hs', ?_⟩
    unfold BitSet.contains at ha ⊢
    rw [hbits]
    exact ha

/-- **The run ends** at the first sweep that changes nothing, and that sweep
is counted as well. -/
theorem settle_spec (hlinks : LinksWithin size links) (hk : Kept size sets) (rounds : Nat) :
    ∃ k, settle links sets rounds = ((sweep links)^[k] sets, rounds + k + 1) ∧
      sweep links ((sweep links)^[k] sets) = (sweep links)^[k] sets ∧
      ∀ j < k, sweep links ((sweep links)^[j] sets) ≠ (sweep links)^[j] sets := by
  fun_induction settle links sets rounds with
  | case1 sets rounds next hlt ih =>
      obtain ⟨k, hsettle, hfix, hbefore⟩ := ih (hk.sweep hlinks)
      have hne : sweep links sets ≠ sets := (weight_sweep hk hlinks).1 hlt
      refine ⟨k + 1, ?_, hfix, fun j hj => ?_⟩
      · rw [hsettle, Function.iterate_succ_apply]
        congr 1
        omega
      · cases j with
        | zero => exact hne
        | succ j =>
            rw [Function.iterate_succ_apply]
            exact hbefore j (by omega)
  | case2 sets rounds next hlt =>
      have hfix : sweep links sets = sets := by
        by_contra hne
        exact hlt ((weight_sweep hk hlinks).2 hne)
      exact ⟨0, rfl, hfix, fun j hj => absurd hj (by omega)⟩

theorem Kept.iterate_sweep (hk : Kept size sets) (hlinks : LinksWithin size links) (k : Nat) :
    Kept size ((Dominators.sweep links)^[k] sets) := by
  induction k with
  | zero => exact hk
  | succ k ih =>
      rw [Function.iterate_succ_apply']
      exact ih.sweep hlinks

/-! ## Computing afresh gives the same sets -/

/-- The set of a node computed afresh: all nodes that the sets of the
predecessors share, and the node itself. -/
def recomputeAt (size : Nat) (sets : Array BitSet) (link : NodeId × List NodeId) :
    Array BitSet :=
  sets.setIfInBounds link.1 (refined sets link.1 link.2 (BitSet.full size))

/-- One pass that computes every set afresh. -/
def recompute (size : Nat) (links : List (NodeId × List NodeId)) (sets : Array BitSet) :
    Array BitSet :=
  links.foldl (recomputeAt size) sets

/-- No set is below what the predecessors of its node leave. -/
def Above (size : Nat) (links : List (NodeId × List NodeId)) (sets : Array BitSet) : Prop :=
  ∀ link ∈ links, ∀ a < size,
    (∀ p ∈ link.2, among sets a p = true) → among sets a link.1 = true

/-- Every node has one list of predecessors. -/
def Functional (links : List (NodeId × List NodeId)) : Prop :=
  ∀ link ∈ links, ∀ link' ∈ links, link.1 = link'.1 → link.2 = link'.2

private theorem among_recomputeAt (hk : Kept size sets) (hnode : node < size)
    (hpreds : ∀ p ∈ preds, p < size) :
    among (recomputeAt size sets (node, preds)) a b = true ↔
      if b = node then a = node ∨ (a < size ∧ ∀ p ∈ preds, among sets a p = true)
      else among sets a b = true := by
  rw [recomputeAt, among_setIfInBounds hk hnode]
  by_cases hb : b = node
  · subst hb
    have hcap : (BitSet.full size).capacity = size := rfl
    rw [if_pos rfl, if_pos rfl, refined, BitSet.contains_add, capacity_foldl_meet, hcap,
      Bool.or_eq_true, contains_foldl_meet hk hpreds, BitSet.contains_full]
    by_cases ha : a = b
    · simp [ha, hnode]
    · simp [ha]
  · rw [if_neg hb, if_neg hb]

private theorem kept_recomputeAt (hk : Kept size sets) (hnode : node < size) :
    Kept size (recomputeAt size sets (node, preds)) := by
  have hcap : (BitSet.full size).capacity = size := rfl
  refine kept_setIfInBounds hk ?_ fun _ => ?_
  · rw [refined, BitSet.capacity_add, capacity_foldl_meet, hcap]
  · rw [refined, BitSet.contains_add, capacity_foldl_meet, hcap]
    simp [hnode]

private theorem refineAt_eq_recomputeAt {link : NodeId × List NodeId}
    (hlinks : LinksWithin size links) (hk : Kept size sets) (habove : Above size links sets)
    (hlink : link ∈ links) : refineAt sets link = recomputeAt size sets link := by
  obtain ⟨node, preds⟩ := link
  obtain ⟨hnode, hpreds⟩ := hlinks _ hlink
  refine (hk.refineAt hnode).ext (kept_recomputeAt hk hnode) fun a b => ?_
  rw [among_refineAt hk hnode hpreds, among_recomputeAt hk hnode hpreds]
  by_cases hb : b = node
  · subst hb
    rw [if_pos rfl]
    constructor
    · rintro ⟨hab, hor⟩
      rcases hor rfl with ha | hall
      · exact .inl ha
      · exact .inr ⟨(hk.lt_of_among hab).1, hall⟩
    · rintro (rfl | ⟨ha, hall⟩)
      · exact ⟨hk.self_mem hnode, fun _ => .inl rfl⟩
      · exact ⟨habove _ hlink a ha hall, fun _ => .inr hall⟩
  · simp [hb]

private theorem above_refineAt {link : NodeId × List NodeId}
    (hlinks : LinksWithin size links) (hfun : Functional links) (hk : Kept size sets)
    (habove : Above size links sets) (hlink : link ∈ links) :
    Above size links (refineAt sets link) := by
  obtain ⟨node, preds⟩ := link
  obtain ⟨hnode, hpreds⟩ := hlinks _ hlink
  intro other hother a ha hall
  have hold : ∀ p ∈ other.2, among sets a p = true := fun p hp =>
    ((among_refineAt hk hnode hpreds).1 (hall p hp)).1
  refine (among_refineAt hk hnode hpreds).2 ⟨habove other hother a ha hold, fun hsame => ?_⟩
  have hsame' : other.2 = preds := hfun other hother _ hlink hsame
  exact .inr (hsame' ▸ hold)

private theorem sweep_eq_recompute (hlinks : LinksWithin size links)
    (hfun : Functional links) (hk : Kept size sets) (habove : Above size links sets) :
    sweep links sets = recompute size links sets ∧ Above size links (sweep links sets) := by
  -- The links still to be visited are a part of all links; `Above` is about all of them.
  have hpart : ∀ part : List (NodeId × List NodeId), (∀ l ∈ part, l ∈ links) →
      ∀ sets, Kept size sets → Above size links sets →
        part.foldl refineAt sets = part.foldl (recomputeAt size) sets ∧
          Above size links (part.foldl refineAt sets) := by
    intro part
    induction part with
    | nil => intro _ sets _ habove; exact ⟨rfl, habove⟩
    | cons link rest ih =>
        intro hsub sets hk habove
        have hlink := hsub link List.mem_cons_self
        have hsame := refineAt_eq_recomputeAt hlinks hk habove hlink
        rw [List.foldl_cons, List.foldl_cons, ← hsame]
        exact ih (fun l hl => hsub l (List.mem_cons_of_mem _ hl)) _
          (hk.refineAt (hlinks link hlink).1) (above_refineAt hlinks hfun hk habove hlink)
  exact hpart links (fun l hl => hl) sets hk habove

/-- Narrowing the sets and computing them afresh is the same, sweep by
sweep. -/
theorem sweep_iterate_eq_recompute (hlinks : LinksWithin size links)
    (hfun : Functional links) (hk : Kept size sets) (habove : Above size links sets) (k : Nat) :
    (sweep links)^[k] sets = (recompute size links)^[k] sets ∧
      sweep links ((sweep links)^[k] sets) = recompute size links ((sweep links)^[k] sets) := by
  have hrun : Above size links ((sweep links)^[k] sets) ∧
      (sweep links)^[k] sets = (recompute size links)^[k] sets := by
    induction k with
    | zero => exact ⟨habove, rfl⟩
    | succ k ih =>
        obtain ⟨habove', heq⟩ := ih
        obtain ⟨hstep, habove''⟩ :=
          sweep_eq_recompute hlinks hfun (hk.iterate_sweep hlinks k) habove'
        rw [Function.iterate_succ_apply', Function.iterate_succ_apply', ← heq]
        exact ⟨habove'', hstep⟩
  exact ⟨hrun.2, (sweep_eq_recompute hlinks hfun (hk.iterate_sweep hlinks k) hrun.1).1⟩

end Dominators

end MethodFlow
