import Mathlib.Data.List.Perm.Subperm
import Mathlib.Logic.Relation
import MethodFlow.Proofs.Graph.Search

/-!
# Searches that keep what they have found

`explore` knows from the beginning what it may find, and crosses off what it
has found.  A program mostly does not know this.  It remembers what it has
found, takes the next element from a worklist, and passes over what it has
found before.

Such programs differ in what they put on the worklist when they find
something: all that it leads to, or only what has not been found yet, or only
what is not on the list already.  `Worklist.Step` leaves this open, as long as
nothing is lost: whatever the element leads to must be found or on the list
afterwards.  That is enough.  Of every such search no more is left to do with
each step, although the list itself may grow, and at its end it has found what
`explore` finds, each element once, in an order of its own.

## Main results

* `Worklist.Searching.step`: what one step keeps.
* `Worklist.Searching.exists_end`: a program whose steps are steps of a
  search comes to an end.
* `Worklist.Searching.perm_explore`: at the end it has found what `explore`
  finds.
-/

namespace MethodFlow

universe u v

/-- A search under way. -/
structure Worklist (α : Type u) where
  /-- What has been found, the last first. -/
  found : List α
  /-- What is still to be looked at, the next first. -/
  work : List α

namespace Worklist

variable {α : Type u} {next : α → List α} {pool roots found : List α} {w w' : Worklist α}

/-- One step of a search in `pool`. -/
inductive Step (next : α → List α) (pool : List α) : Worklist α → Worklist α → Prop where
  /-- Passes over what has been found or cannot be found. -/
  | skip {a : α} {found rest : List α} (hold : a ∈ pool → a ∈ found) :
      Step next pool ⟨found, a :: rest⟩ ⟨found, rest⟩
  /-- Finds an element, and puts on the list what it leads to, as far as that
  has been neither found nor put there before. -/
  | find {a : α} {found more rest : List α} (hpool : a ∈ pool) (hnew : a ∉ found)
      (hmore : ∀ b ∈ more, b ∈ next a)
      (hall : ∀ b ∈ next a, b ∈ pool → b ∈ a :: found ∨ b ∈ more ++ rest) :
      Step next pool ⟨found, a :: rest⟩ ⟨a :: found, more ++ rest⟩

/-- A search from `roots` under way: nothing was taken up that cannot be
reached, and whatever the elements found lead to has been taken up. -/
structure Searching (next : α → List α) (pool roots : List α) (w : Worklist α) : Prop where
  nodup : w.found.Nodup
  found : ∀ b ∈ w.found, ReachIn next pool roots b
  work : ∀ b ∈ w.work, b ∈ pool → ReachIn next pool roots b
  begun : ∀ b ∈ roots, b ∈ pool → b ∈ w.found ∨ b ∈ w.work
  closed : ∀ a ∈ w.found, ∀ b ∈ next a, b ∈ pool → b ∈ w.found ∨ b ∈ w.work

namespace Searching

/-- The order of the roots does not matter, nor what is not in the pool. -/
theorem start {work : List α} (hwork : ∀ b ∈ pool, b ∈ work ↔ b ∈ roots) :
    Searching next pool roots ⟨[], work⟩ :=
  ⟨.nil, List.forall_mem_nil _, fun b hb hpool => .root hpool ((hwork b hpool).1 hb),
    fun b hb hpool => .inr ((hwork b hpool).2 hb), List.forall_mem_nil _⟩

theorem step (h : Searching next pool roots w) (hstep : Step next pool w w') :
    Searching next pool roots w' := by
  cases hstep with
  | @skip a found rest hold =>
      have hmoved : ∀ b ∈ pool, b ∈ found ∨ b ∈ a :: rest → b ∈ found ∨ b ∈ rest := by
        rintro b hpool (hb | hb)
        · exact .inl hb
        · rcases List.mem_cons.1 hb with rfl | hb
          · exact .inl (hold hpool)
          · exact .inr hb
      exact ⟨h.nodup, h.found, fun b hb => h.work b (List.mem_cons_of_mem a hb),
        fun b hb hpool => hmoved b hpool (h.begun b hb hpool),
        fun c hc b hb hpool => hmoved b hpool (h.closed c hc b hb hpool)⟩
  | @find a found more rest hpool hnew hmore hall =>
      -- What was to be looked at still is, or is the element just found.
      have hmoved : ∀ b, b ∈ found ∨ b ∈ a :: rest → b ∈ a :: found ∨ b ∈ more ++ rest := by
        rintro b (hb | hb)
        · exact .inl (List.mem_cons_of_mem a hb)
        · rcases List.mem_cons.1 hb with rfl | hb
          · exact .inl List.mem_cons_self
          · exact .inr (List.mem_append_right more hb)
      have ha : ReachIn next pool roots a := h.work a List.mem_cons_self hpool
      refine ⟨List.nodup_cons.2 ⟨hnew, h.nodup⟩, ?_, ?_,
        fun b hb hb' => hmoved b (h.begun b hb hb'), ?_⟩
      · exact List.forall_mem_cons.2 ⟨ha, h.found⟩
      · intro b hb hb'
        rcases List.mem_append.1 hb with hb | hb
        · exact .step ha hb' (hmore b hb)
        · exact h.work b (List.mem_cons_of_mem a hb) hb'
      · intro c hc b hb hb'
        rcases List.mem_cons.1 hc with rfl | hc
        · exact hall b hb hb'
        · exact hmoved b (h.closed c hc b hb hb')

/-- What is left of the pool, and the length of the worklist. -/
def ahead (pool : List α) (w : Worklist α) : Nat × Nat :=
  (pool.length - w.found.length, w.work.length)

/-- A step finds something in the pool or shortens the worklist. -/
theorem ahead_lt (h : Searching next pool roots w) (hstep : Step next pool w w') :
    Prod.Lex (· < ·) (· < ·) (ahead pool w') (ahead pool w) := by
  have hnext := h.step hstep
  have hpool : w'.found.length ≤ pool.length :=
    (hnext.nodup.subperm fun b hb => (hnext.found b hb).mem_pending).length_le
  cases hstep with
  | skip hold => exact .right _ (Nat.lt_succ_self _)
  | find hmem hnew hmore hall => exact .left _ _ (Nat.sub_lt_sub_left hpool (Nat.lt_succ_self _))

/-- **Searches end.**  A program that shows a search and can take a step of it
as long as something is on the worklist comes to an empty worklist. -/
theorem exists_end {σ : Type v} {advance : σ → σ → Prop} {Shows : σ → Worklist α → Prop}
    (hsteps : ∀ s found a rest, Shows s ⟨found, a :: rest⟩ →
      Searching next pool roots ⟨found, a :: rest⟩ →
      ∃ s' w', advance s s' ∧ Shows s' w' ∧ Step next pool ⟨found, a :: rest⟩ w')
    {s : σ} {w : Worklist α} (h : Searching next pool roots w) (hs : Shows s w) :
    ∃ s' found, Relation.ReflTransGen advance s s' ∧ Shows s' ⟨found, []⟩ ∧
      Searching next pool roots ⟨found, []⟩ := by
  match w, h, hs with
  | ⟨found, []⟩, h, hs => exact ⟨s, found, .refl, hs, h⟩
  | ⟨found, a :: rest⟩, h, hs =>
      obtain ⟨s₁, w₁, hadvance, hs₁, hstep⟩ := hsteps s found a rest hs h
      obtain ⟨s', found', hrun, hend⟩ := exists_end hsteps (h.step hstep) hs₁
      exact ⟨s', found', .head hadvance hrun, hend⟩
termination_by ahead pool w
decreasing_by exact h.ahead_lt hstep

theorem mem_found (h : Searching next pool roots ⟨found, []⟩) {b : α} :
    b ∈ found ↔ ReachIn next pool roots b := by
  have hfound : ∀ {b}, b ∈ found ∨ b ∈ ([] : List α) → b ∈ found := fun hb =>
    hb.resolve_right List.not_mem_nil
  refine ⟨h.found b, fun hreach => ?_⟩
  induction hreach with
  | root hpool hwork => exact hfound (h.begun _ hwork hpool)
  | step _ hpool hnext ih => exact hfound (h.closed _ ih _ hnext hpool)

/-- **Searches find** what `explore` finds. -/
theorem perm_explore [DecidableEq α] (h : Searching next pool roots ⟨found, []⟩)
    (hpool : pool.Nodup) : found.Perm (explore next pool roots) :=
  (List.perm_ext_iff_of_nodup h.nodup (nodup_explore hpool)).2 fun _ =>
    h.mem_found.trans mem_explore.symm

end Searching

end Worklist

end MethodFlow
