import Mathlib.Data.List.Nodup
import Mathlib.Data.Set.Basic
import Mathlib.Order.Bounds.Defs
import MethodFlow.Proofs.Graph.Paths

/-!
# Where paths converge

Two paths converge at a node when both lead there and they share no other
node, unless one of them passes through its own end.  The nodes where paths
from different members of a set converge, then those where paths from these
converge as well, and so on, are its iterated joins.

Iterating adds nothing.  A node that a single node separates from the set is
no iterated join: of two paths that share nothing, one avoids the single node.
And where no single node separates, two paths from the set itself converge.
They are built by walking towards the node with two arms, paths that share
nothing before they meet on the way.  A path that avoids the meeting point
replaces one of the arms up to the next node of the way that it comes to, and
the other arm follows the way: the arms now meet further on, at last at the
node itself.

## Main results

* `View.exists_converge_of_unseparated`: two paths from a set converge at a
  node that no single node separates from it.
* `View.exists_converge_of_isLeast`: at every iterated join of a set, paths
  from two of its members converge.
-/

namespace MethodFlow

namespace View

variable {v : View} {a b m p q r u w x y z : Nat} {path front back rest xs ys : List NodeId}
  {S T A B X : Set NodeId}

/-! ## Converging paths -/

/-- `v.Converge x y z xs ys`: the paths `xs` from `x` and `ys` from `y`, two
different nodes, follow at least one edge each and converge at `z`; a node
that both pass is the end of one of them. -/
structure Converge (v : View) (x y z : NodeId) (xs ys : List NodeId) : Prop where
  left : v.Path x z xs
  right : v.Path y z ys
  left_moves : 1 < xs.length
  right_moves : 1 < ys.length
  starts_ne : x ≠ y
  meet : ∀ {j k n : Nat}, xs[j]? = some n → ys[k]? = some n →
    j + 1 = xs.length ∨ k + 1 = ys.length

/-- `T` contains the nodes where paths converge that start at different
members of `S` or of `T` itself. -/
def JoinClosed (v : View) (S T : Set NodeId) : Prop :=
  ∀ {x y z : NodeId} {xs ys : List NodeId}, x ∈ S ∪ T → y ∈ S ∪ T →
    v.Converge x y z xs ys → z ∈ T

/-- A path that follows an edge is a path to a predecessor of its end and a
last edge. -/
theorem Path.exists_front (h : v.Path x z path) (hmoves : 1 < path.length) :
    ∃ p front, v.Path x p front ∧ z ∈ v.succ p ∧ path = front ++ [z] := by
  cases h with
  | start => exact absurd hmoves (Nat.lt_irrefl 1)
  | step hfront hedge => exact ⟨_, _, hfront, hedge, rfl⟩

/-- Converging paths share nothing before their end. -/
theorem Converge.exists_fronts (h : v.Converge x y z xs ys) :
    ∃ p q front back, v.Path x p front ∧ z ∈ v.succ p ∧ v.Path y q back ∧ z ∈ v.succ q ∧
      ∀ n ∈ front, n ∉ back := by
  obtain ⟨p, front, hfront, hp, rfl⟩ := h.left.exists_front h.left_moves
  obtain ⟨q, back, hback, hq, rfl⟩ := h.right.exists_front h.right_moves
  refine ⟨p, q, front, back, hfront, hp, hback, hq, fun n hn hn' => ?_⟩
  obtain ⟨j, hj⟩ := List.getElem?_of_mem hn
  obtain ⟨k, hk⟩ := List.getElem?_of_mem hn'
  have hjlt : j < front.length := (List.getElem?_eq_some_iff.1 hj).1
  have hklt : k < back.length := (List.getElem?_eq_some_iff.1 hk).1
  have hends := h.meet ((List.getElem?_append_left hjlt).trans hj)
    ((List.getElem?_append_left hklt).trans hk)
  simp only [List.length_append, List.length_singleton] at hends
  omega

private theorem mem_of_getElem?_concat {j n : Nat} (h : (front ++ [z])[j]? = some n)
    (hj : j + 1 ≠ (front ++ [z]).length) : n ∈ front := by
  have hlt : j < (front ++ [z]).length := (List.getElem?_eq_some_iff.1 h).1
  simp only [List.length_append, List.length_singleton] at hj hlt
  rw [List.getElem?_append_left (by omega)] at h
  exact List.mem_of_getElem? h

theorem converge_of_fronts (hfront : v.Path x p front) (hp : z ∈ v.succ p)
    (hback : v.Path y q back) (hq : z ∈ v.succ q) (hapart : ∀ n ∈ front, n ∉ back) :
    v.Converge x y z (front ++ [z]) (back ++ [z]) where
  left := hfront.step hp
  right := hback.step hq
  left_moves := by
    have hpos := List.length_pos_of_mem hfront.start_mem
    simp only [List.length_append, List.length_singleton]
    omega
  right_moves := by
    have hpos := List.length_pos_of_mem hback.start_mem
    simp only [List.length_append, List.length_singleton]
    omega
  starts_ne := by
    rintro rfl
    exact hapart x hfront.start_mem hback.start_mem
  meet := by
    intro j k n hj hk
    by_contra hends
    obtain ⟨hjend, hkend⟩ := not_or.1 hends
    exact hapart n (mem_of_getElem?_concat hj hjend) (mem_of_getElem?_concat hk hkend)

/-! ## Cutting paths -/

/-- A path that starts outside a set misses it, or comes to it by an edge
before which it has missed it. -/
theorem Path.exists_arrival (h : v.Path a b path) (ha : a ∉ X) :
    (∀ n ∈ path, n ∉ X) ∨ ∃ r ∈ X, r ∈ path ∧ ∃ m front, v.Path a m front ∧ r ∈ v.succ m ∧
      ∀ n ∈ front, n ∈ path ∧ n ∉ X := by
  induction h with
  | start => exact .inl (List.forall_mem_singleton.2 ha)
  | @step b c path hpath hedge ih =>
      rcases ih with hmiss | ⟨r, hr, hmem, m, front, hfront, hnext, hall⟩
      · by_cases hc : c ∈ X
        · exact .inr ⟨c, hc, List.mem_append_right _ (List.mem_singleton_self c), b, path, hpath,
            hedge, fun n hn => ⟨List.mem_append_left _ hn, hmiss n hn⟩⟩
        · exact .inl (List.forall_mem_append.2 ⟨hmiss, List.forall_mem_singleton.2 hc⟩)
      · exact .inr ⟨r, hr, List.mem_append_left _ hmem, m, front, hfront, hnext,
          fun n hn => ⟨List.mem_append_left _ (hall n hn).1, (hall n hn).2⟩⟩

/-- A path misses a set, or misses it after the last member that it
passes. -/
theorem Path.exists_departure (h : v.Path a b path) :
    (∀ n ∈ path, n ∉ X) ∨ ∃ q ∈ X, ∃ back, v.Path q b back ∧
      ∀ n ∈ back, n ∈ path ∧ (n = q ∨ n ∉ X) := by
  have hhere : ∀ {c : Nat} {path : List NodeId}, c ∈ X → c ∈ path →
      ∃ q ∈ X, ∃ back, v.Path q c back ∧ ∀ n ∈ back, n ∈ path ∧ (n = q ∨ n ∉ X) := by
    intro c path hc hmem
    refine ⟨c, hc, [c], .start, fun n hn => ?_⟩
    rw [List.mem_singleton.1 hn]
    exact ⟨hmem, .inl rfl⟩
  induction h with
  | start =>
      by_cases ha : a ∈ X
      · exact .inr (hhere ha (List.mem_singleton_self a))
      · exact .inl (List.forall_mem_singleton.2 ha)
  | @step b c path hpath hedge ih =>
      by_cases hc : c ∈ X
      · exact .inr (hhere hc (List.mem_append_right _ (List.mem_singleton_self c)))
      · rcases ih with hmiss | ⟨q, hq, back, hback, hall⟩
        · exact .inl (List.forall_mem_append.2 ⟨hmiss, List.forall_mem_singleton.2 hc⟩)
        · refine .inr ⟨q, hq, back ++ [c], hback.step hedge, fun n hn => ?_⟩
          rcases List.mem_append.1 hn with hn | hn
          · exact ⟨List.mem_append_left _ (hall n hn).1, (hall n hn).2⟩
          · exact ⟨List.mem_append_right _ hn, .inr (List.mem_singleton.1 hn ▸ hc)⟩

/-- A path can be split in front of every node but its first. -/
theorem Path.exists_split (h : v.Path a b path) (hr : r ∈ path) (hne : r ≠ a) :
    ∃ m front back, path = front ++ back ∧ v.Path a m front ∧ r ∈ v.succ m ∧
      v.Path r b back := by
  induction h with
  | start => exact absurd (List.mem_singleton.1 hr) hne
  | @step b c path hpath hedge ih =>
      by_cases hmem : r ∈ path
      · obtain ⟨m, front, back, rfl, hfront, hnext, hback⟩ := ih hmem
        exact ⟨m, front, back ++ [c], List.append_assoc front back [c], hfront, hnext,
          hback.step hedge⟩
      · have hrc : r = c :=
          List.mem_singleton.1 ((List.mem_append.1 hr).resolve_left hmem)
        subst hrc
        exact ⟨b, path, [r], rfl, hpath, hedge, .start⟩

/-- Where a path leads, a path without repetitions leads by some of its
nodes. -/
theorem Path.exists_nodup (h : v.Path a b path) :
    ∃ short, v.Path a b short ∧ short.Nodup ∧ ∀ n ∈ short, n ∈ path := by
  induction h with
  | start => exact ⟨[a], .start, List.nodup_singleton a, fun n hn => hn⟩
  | @step b c path hpath hedge ih =>
      obtain ⟨short, hshort, hnodup, hsub⟩ := ih
      -- A path to a predecessor of `c` that has not passed `c` can be prolonged.
      have hgrow : ∀ {m : Nat} {front : List NodeId}, v.Path a m front → c ∈ v.succ m →
          front.Nodup → c ∉ front → (∀ n ∈ front, n ∈ short) →
          ∃ short, v.Path a c short ∧ short.Nodup ∧ ∀ n ∈ short, n ∈ path ++ [c] := by
        intro m front hfront hnext hnd hc hcover
        refine ⟨front ++ [c], hfront.step hnext, List.concat_eq_append ▸ hnd.concat hc,
          fun n hn => ?_⟩
        rcases List.mem_append.1 hn with hn | hn
        · exact List.mem_append_left _ (hsub n (hcover n hn))
        · exact List.mem_append_right _ hn
      by_cases hc : c ∈ short
      · by_cases hca : c = a
        · subst hca
          exact ⟨[c], .start, List.nodup_singleton c, fun n hn => List.mem_append_right _ hn⟩
        · obtain ⟨m, front, back, rfl, hfront, hnext, hback⟩ := hshort.exists_split hc hca
          obtain ⟨hnd, -, hdisjoint⟩ := List.nodup_append.1 hnodup
          exact hgrow hfront hnext hnd (fun hmem => hdisjoint c hmem c hback.start_mem rfl)
            fun n hn => List.mem_append_left _ hn
      · exact hgrow hshort hedge hnodup hc fun n hn => hn

/-! ## Two arms -/

/-- No single node lies on all paths that lead from `S` to `z` by at least one
edge. -/
def Unseparated (v : View) (S : Set NodeId) (z : NodeId) : Prop :=
  ∀ w, ∃ s ∈ S, ∃ p front, v.Path s p front ∧ z ∈ v.succ p ∧ w ∉ front

/-- `A` is an arm from `S` to `u`: inside `A`, paths lead from `S` to every
member and up to `u`. -/
structure Arm (v : View) (S A : Set NodeId) (u : NodeId) : Prop where
  inside : ∀ q ∈ A, ∃ s ∈ S, ∃ path, v.Path s q path ∧ ∀ n ∈ path, n ∈ A
  arrives : ∃ s ∈ S, ∃ path, v.Path s u path ∧ ∀ n ∈ path, n ∈ A ∨ n = u

theorem Arm.of_path (ha : a ∈ S) (h : v.Path a b path) (hedge : u ∈ v.succ b) :
    v.Arm S {n | n ∈ path} u where
  inside q hq := by
    obtain ⟨front, hfront, hsub⟩ := h.cut hq
    exact ⟨a, ha, front, hfront, hsub⟩
  arrives := by
    refine ⟨a, ha, path ++ [u], h.step hedge, fun n hn => ?_⟩
    rcases List.mem_append.1 hn with hn | hn
    · exact .inl hn
    · exact .inr (List.mem_singleton.1 hn)

/-- An arm can be followed on a path from where it arrives. -/
theorem Arm.exists_path (h : v.Arm S A u) (hpath : v.Path u m path) :
    ∃ s ∈ S, ∃ whole, v.Path s m whole ∧ ∀ n ∈ whole, n ∈ A ∨ n ∈ path := by
  obtain ⟨s, hs, front, hfront, hsub⟩ := h.arrives
  obtain ⟨whole, hwhole, hcover⟩ := hfront.trans hpath
  refine ⟨s, hs, whole, hwhole, fun n hn => ?_⟩
  rcases hcover n hn with hn | hn
  · rcases hsub n hn with hn | rfl
    · exact .inl hn
    · exact .inr hpath.start_mem
  · exact .inr hn

/-- Two arms that share nothing meet at `u`, and `rest` is a way on to a
predecessor of `z` that they do not touch before.  The way repeats nothing
and passes `S` at its start only. -/
structure Pincer (v : View) (S A B : Set NodeId) (u z : NodeId) (rest : List NodeId) : Prop where
  left : v.Arm S A u
  right : v.Arm S B u
  apart : ∀ n ∈ A, n ∉ B
  way : ∃ m, v.Path u m rest ∧ z ∈ v.succ m
  left_off : ∀ n ∈ rest, n ∉ A
  right_off : ∀ n ∈ rest, n ∉ B
  nodup : rest.Nodup
  fresh : ∀ n ∈ rest, n ∈ S → n = u

theorem Pincer.symm (h : v.Pincer S A B u z rest) : v.Pincer S B A u z rest :=
  ⟨h.right, h.left, fun n hn hn' => h.apart n hn' hn, h.way, h.right_off, h.left_off, h.nodup,
    h.fresh⟩

/-- A path that leaves an arm, and shares nothing with the way nor with the
other arm, can be made to start in `S`. -/
private theorem Pincer.exists_start (h : v.Pincer S A B u z rest) (hq : q ∈ A)
    (hpath : v.Path q b path) (hrest : ∀ n ∈ path, n ∉ rest)
    (hB : ∀ n ∈ path, n = q ∨ n ∉ B) :
    ∃ s ∈ S, ∃ arm, v.Path s b arm ∧ (∀ n ∈ arm, n ∉ rest) ∧ ∀ n ∈ arm, n ∉ B := by
  obtain ⟨s, hs, front, hfront, hsub⟩ := h.left.inside q hq
  obtain ⟨arm, harm, hcover⟩ := hfront.trans hpath
  refine ⟨s, hs, arm, harm, fun n hn hnrest => ?_, fun n hn => ?_⟩
  · exact (hcover n hn).elim (fun hn => h.left_off n hnrest (hsub n hn))
      fun hn => hrest n hn hnrest
  · rcases hcover n hn with hn | hn
    · exact h.apart n (hsub n hn)
    · rcases hB n hn with rfl | hnone
      · exact h.apart n hq
      · exact hnone

/-- A path past the meeting point gives a third arm.  It shares nothing with
one of the two nor with the way, and comes to the way behind the meeting point
or to `z`. -/
private theorem Pincer.exists_arm (h : v.Pincer S A B u z rest) (hz : v.Unseparated S z) :
    ∃ s ∈ S, ∃ b arm, v.Path s b arm ∧ (∀ n ∈ arm, n ∉ rest) ∧
      ((∀ n ∈ arm, n ∉ A) ∨ ∀ n ∈ arm, n ∉ B) ∧
      (z ∈ v.succ b ∨ ∃ r ∈ rest, r ≠ u ∧ r ∈ v.succ b) := by
  obtain ⟨s, hs, p, path, hpath, hp, hu⟩ := hz u
  -- From a node off the way on, the path can be followed to the way, or to its end.
  have hfollow : ∀ {q : Nat} {back : List NodeId}, v.Path q p back → q ∉ rest →
      (∀ n ∈ back, n ∈ path) → ∃ b arm, v.Path q b arm ∧ (∀ n ∈ arm, n ∈ back ∧ n ∉ rest) ∧
        (z ∈ v.succ b ∨ ∃ r ∈ rest, r ≠ u ∧ r ∈ v.succ b) := by
    intro q back hback hq hsub
    rcases hback.exists_arrival (X := {n | n ∈ rest}) hq with
      hmiss | ⟨r, hr, hmem, b, arm, harm, hnext, hall⟩
    · exact ⟨p, back, hback, fun n hn => ⟨hn, hmiss n hn⟩, .inl hp⟩
    · exact ⟨b, arm, harm, hall, .inr ⟨r, hr, fun hru => hu (hru ▸ hsub r hmem), hnext⟩⟩
  rcases hpath.exists_departure (X := A ∪ B) with hmiss | ⟨q, hq, back, hback, hall⟩
  · have hsrest : s ∉ rest := fun hmem => hu (h.fresh s hmem hs ▸ hpath.start_mem)
    obtain ⟨b, arm, harm, hoff, hend⟩ := hfollow hpath hsrest fun n hn => hn
    exact ⟨s, hs, b, arm, harm, fun n hn => (hoff n hn).2,
      .inl fun n hn hnA => hmiss n (hoff n hn).1 (.inl hnA), hend⟩
  · have hqrest : q ∉ rest := fun hmem => hq.elim (h.left_off q hmem) (h.right_off q hmem)
    obtain ⟨b, arm, harm, hoff, hend⟩ := hfollow hback hqrest fun n hn => (hall n hn).1
    have hlast : ∀ n ∈ arm, n = q ∨ n ∉ A ∪ B := fun n hn => (hall n (hoff n hn).1).2
    rcases hq with hqA | hqB
    · obtain ⟨s', hs', arm', harm', hrest, hB⟩ := h.exists_start hqA harm
        (fun n hn => (hoff n hn).2) fun n hn => (hlast n hn).imp_right fun hnone hnB =>
          hnone (.inr hnB)
      exact ⟨s', hs', b, arm', harm', hrest, .inr hB, hend⟩
    · obtain ⟨s', hs', arm', harm', hrest, hA⟩ := h.symm.exists_start hqB harm
        (fun n hn => (hoff n hn).2) fun n hn => (hlast n hn).imp_right fun hnone hnA =>
          hnone (.inl hnA)
      exact ⟨s', hs', b, arm', harm', hrest, .inl hA, hend⟩

/-- A third arm that shares nothing with the left one ends the walk, or makes
the arms meet further on. -/
private theorem Pincer.advance (h : v.Pincer S A B u z rest) (ha : a ∈ S)
    (harm : v.Path a b path) (hrest : ∀ n ∈ path, n ∉ rest) (hA : ∀ n ∈ path, n ∉ A)
    (hend : z ∈ v.succ b ∨ ∃ r ∈ rest, r ≠ u ∧ r ∈ v.succ b) :
    (∃ x ∈ S, ∃ y ∈ S, ∃ xs ys, v.Converge x y z xs ys) ∨
      ∃ A' B' r back, v.Pincer S A' B' r z back ∧ back.length < rest.length := by
  obtain ⟨m, hway, hm⟩ := h.way
  rcases hend with hend | ⟨r, hr, hne, hnext⟩
  · obtain ⟨s, hs, whole, hwhole, hcover⟩ := h.left.exists_path hway
    refine .inl ⟨a, ha, s, hs, _, _, converge_of_fronts harm hend hwhole hm fun n hn hn' => ?_⟩
    exact (hcover n hn').elim (hA n hn) (hrest n hn)
  · obtain ⟨k, front, back, rfl, hfront, hk, hback⟩ := hway.exists_split hr hne
    obtain ⟨s, hs, whole, hwhole, hcover⟩ := h.left.exists_path hfront
    obtain ⟨-, hnodup, hdisjoint⟩ := List.nodup_append.1 h.nodup
    refine .inr ⟨{n | n ∈ path}, {n | n ∈ whole}, r, back,
      ⟨.of_path ha harm hnext, .of_path hs hwhole hk, fun n hn hn' => ?_, ⟨m, hback, hm⟩,
        fun n hn hn' => hrest n hn' (List.mem_append_right _ hn), fun n hn hn' => ?_, hnodup,
        fun n hn hnS => ?_⟩, ?_⟩
    · exact (hcover n hn').elim (hA n hn) fun hn' => hrest n hn (List.mem_append_left _ hn')
    · exact (hcover n hn').elim (h.left_off n (List.mem_append_right _ hn))
        fun hn' => hdisjoint n hn' n hn rfl
    · have hnu := h.fresh n (List.mem_append_right _ hn) hnS
      exact absurd hnu.symm (hdisjoint u hfront.start_mem n hn)
    · have hpos := List.length_pos_of_mem hfront.start_mem
      rw [List.length_append]
      omega

private theorem Pincer.exists_converge (h : v.Pincer S A B u z rest)
    (hz : v.Unseparated S z) : ∃ x ∈ S, ∃ y ∈ S, ∃ xs ys, v.Converge x y z xs ys := by
  induction hlen : rest.length using Nat.strongRecOn generalizing A B u rest with
  | ind len ih =>
      obtain ⟨s, hs, b, arm, harm, hrest, hside, hend⟩ := h.exists_arm hz
      have hstep : (∃ x ∈ S, ∃ y ∈ S, ∃ xs ys, v.Converge x y z xs ys) ∨
          ∃ A' B' r back, v.Pincer S A' B' r z back ∧ back.length < rest.length := by
        rcases hside with hA | hB
        · exact h.advance hs harm hrest hA hend
        · exact h.symm.advance hs harm hrest hB hend
      rcases hstep with hdone | ⟨A', B', r, back, hnext, hlt⟩
      · exact hdone
      · exact ih back.length (hlen ▸ hlt) hnext rfl

/-- **Two paths converge** at a node that no single node separates from a
set. -/
theorem exists_converge_of_unseparated (hz : v.Unseparated S z) :
    ∃ x ∈ S, ∃ y ∈ S, ∃ xs ys, v.Converge x y z xs ys := by
  obtain ⟨s, hs, p, path, hpath, hp, -⟩ := hz z
  rcases hpath.exists_departure (X := S) with hmiss | ⟨q, hq, back, hback, hall⟩
  · exact absurd hs (hmiss s hpath.start_mem)
  · obtain ⟨rest, hrest, hnodup, hsub⟩ := hback.exists_nodup
    have harm : v.Arm S ∅ q :=
      ⟨fun n hn => hn.elim, q, hq, [q], .start, fun n hn => .inr (List.mem_singleton.1 hn)⟩
    have hpincer : v.Pincer S ∅ ∅ q z rest :=
      ⟨harm, harm, fun n hn => hn.elim, ⟨p, hrest, hp⟩, fun n _ hn => hn, fun n _ hn => hn,
        hnodup, fun n hn hnS => ((hall n (hsub n hn)).2).resolve_right fun hnone => hnone hnS⟩
    exact hpincer.exists_converge hz

/-! ## Iterated joins -/

/-- Joins of nodes that no single node separates from a set, or that belong to
it, are such nodes: of the two paths one avoids the single node. -/
theorem joinClosed_unseparated (v : View) (S : Set NodeId) :
    v.JoinClosed S {z | v.Unseparated S z} := by
  have hreach : ∀ {x p z w : Nat} {path : List NodeId}, x ∈ S ∪ {z | v.Unseparated S z} →
      v.Path x p path → z ∈ v.succ p → w ∉ path →
      ∃ s ∈ S, ∃ p front, v.Path s p front ∧ z ∈ v.succ p ∧ w ∉ front := by
    intro x p z w path hx hpath hp hw
    rcases hx with hx | hx
    · exact ⟨x, hx, p, path, hpath, hp, hw⟩
    · obtain ⟨s, hs, q, front, hfront, hq, hwfront⟩ := hx w
      obtain ⟨whole, hwhole, hcover⟩ := (hfront.step hq).trans hpath
      refine ⟨s, hs, p, whole, hwhole, hp, fun hmem => ?_⟩
      rcases hcover w hmem with hmem | hmem
      · rcases List.mem_append.1 hmem with hmem | hmem
        · exact hwfront hmem
        · exact hw (List.mem_singleton.1 hmem ▸ hpath.start_mem)
      · exact hw hmem
  intro x y z xs ys hx hy hjoin w
  obtain ⟨p, q, front, back, hfront, hp, hback, hq, hapart⟩ := hjoin.exists_fronts
  by_cases hw : w ∈ front
  · exact hreach hy hback hq (hapart w hw)
  · exact hreach hx hfront hp hw

/-- **Iterating joins adds nothing**: at every member of the least set closed
under joins, paths from two members of the given set converge. -/
theorem exists_converge_of_isLeast (hT : IsLeast {T : Set NodeId | v.JoinClosed S T} T)
    (hz : z ∈ T) : ∃ x ∈ S, ∃ y ∈ S, ∃ xs ys, v.Converge x y z xs ys :=
  exists_converge_of_unseparated (hT.2 (v.joinClosed_unseparated S) hz)

end View

end MethodFlow
