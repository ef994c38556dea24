import Mathlib.Algebra.Ring.Nat
import Mathlib.Data.List.Induction
import MethodFlow.Proofs.Data.FiniteSets

/-!
# Sets packed into machine words

A set of numbers below a capacity can be held in words of 64 bits, as many as
the capacity needs.  The last word has bits to spare, and nothing in the
representation forbids that they are set; equality and counting compare whole
words and rely on them being clear.  Elements are listed by a cursor that takes
the lowest bit of a word, clears it with `w &&& (w - 1)`, and moves on when the
word is used up.

This module has the operations, reads words bit by bit, and follows the cursor
to its end.  What the operations mean as operations on sets is the subject of
`MethodFlow.Proofs.Data.PackedSets`.

## Main results

* `PackedSet.getLsbD_clearLowest`: what clearing the lowest bit does.
* `PackedSet.Cursor.next_eq_some`, `PackedSet.Cursor.mem_collect`: one step of
  the cursor and all of them.
-/

namespace MethodFlow

/-- A machine word. -/
abbrev Word := BitVec 64

/-- A set held in words: number `i` is bit `i % 64` of word `i / 64`. -/
structure PackedSet where
  capacity : Nat
  words : List Word
  deriving DecidableEq

namespace PackedSet

/-! ## Operations -/

/-- The number of words that a capacity needs. -/
def wordCount (capacity : Nat) : Nat := (capacity + 63) / 64

def new (capacity : Nat) : PackedSet := ⟨capacity, List.replicate (wordCount capacity) 0#64⟩

/-- The word with the lowest bits set. -/
def lowBits (used : Nat) : Word := (1#64 <<< used) - 1#64

/-- Clears the bits of the last word that lie beyond the capacity. -/
def trimTail (p : PackedSet) : PackedSet :=
  if p.capacity % 64 = 0 then p
  else
    let trim (w : Word) : Word := w &&& lowBits (p.capacity % 64)
    { p with words := p.words.modify (p.words.length - 1) trim }

def full (capacity : Nat) : PackedSet :=
  trimTail ⟨capacity, List.replicate (wordCount capacity) (BitVec.allOnes 64)⟩

/-- The word with the bit of an element. -/
def mask (element : Nat) : Word := 1#64 <<< (element % 64)

/-- Reads a word. -/
def word (p : PackedSet) (index : Nat) : Except SetFault Word :=
  match p.words[index]? with
  | some w => .ok w
  | none => .error (.wordMissing index)

/-- Changes the word of an element by its mask; also tells whether the element
was a member. -/
def change (p : PackedSet) (element : Nat) (op : Word → Word → Word) :
    Except SetFault (PackedSet × Bool) :=
  if element < p.capacity then do
    let w ← p.word (element / 64)
    return ({ p with words := p.words.set (element / 64) (op w (mask element)) },
      w &&& mask element != 0#64)
  else .error (.refused (.outOfBounds element p.capacity))

def insert (p : PackedSet) (element : Nat) : Except SetFault (PackedSet × Bool) := do
  let (q, present) ← p.change element fun w m => w ||| m
  return (q, !present)

def erase (p : PackedSet) (element : Nat) : Except SetFault (PackedSet × Bool) :=
  p.change element fun w m => w &&& ~~~m

def singleton (capacity element : Nat) : Except SetFault PackedSet := do
  let (p, _) ← (new capacity).insert element
  return p

def contains (p : PackedSet) (element : Nat) : Except SetFault Bool :=
  if p.capacity ≤ element then .ok false
  else do
    let w ← p.word (element / 64)
    return w &&& mask element != 0#64

/-- Combines the words of two sets one by one, as far as both have them; also
tells whether a word has changed. -/
def combine (p q : PackedSet) (op : Word → Word → Word) : Except SetFault (PackedSet × Bool) :=
  if q.capacity = p.capacity then
    .ok ({ p with words := p.words.zipWith op q.words ++ p.words.drop q.words.length },
      (p.words.zip q.words).any fun (a, b) => op a b != a)
  else .error (.refused .capacityMismatch)

def isSubset (p q : PackedSet) : Except SetFault Bool :=
  if q.capacity = p.capacity then
    .ok ((p.words.zip q.words).all fun (a, b) => a &&& ~~~b == 0#64)
  else .error (.refused .capacityMismatch)

def count (p : PackedSet) : Nat := (p.words.map fun w => w.cpop.toNat).sum

def isEmpty (p : PackedSet) : Bool := p.words.all (· == 0#64)

/-! ## The cursor -/

/-- A place in the words of a set: the bits of `current` are still to come, and
then the words behind `index`. -/
structure Cursor where
  words : List Word
  index : Nat
  current : Word

namespace Cursor

/-- The next element, and the cursor behind it. -/
def next (c : Cursor) : Option (Nat × Cursor) :=
  if c.current ≠ 0#64 then
    some (c.index * 64 + c.current.ctz.toNat,
      { c with current := c.current &&& (c.current - 1#64) })
  else
    match _hword : c.words[c.index + 1]? with
    | none => none
    | some w => next { c with index := c.index + 1, current := w }
termination_by c.words.length - c.index
decreasing_by
  have hlt := (List.getElem?_eq_some_iff.1 _hword).1
  omega

end Cursor

/-- The cursor in front of the first element. -/
def iter (p : PackedSet) : Cursor := ⟨p.words, 0, p.words.head?.getD 0#64⟩

/-! ## Single bits -/

/-- Whether bit `i` is set in a list of words. -/
def bitAt (words : List Word) (i : Nat) : Bool := (words[i / 64]?.getD 0#64).getLsbD (i % 64)

variable {words words' : List Word} {w : Word} {i k element : Nat}

theorem bitAt_of_getElem? (h : words[i / 64]? = some w) : bitAt words i = w.getLsbD (i % 64) := by
  rw [bitAt, h, Option.getD_some]

theorem lt_of_bitAt (h : bitAt words i = true) : i / 64 < words.length := by
  refine Nat.lt_of_not_le fun hle => ?_
  rw [bitAt, List.getElem?_eq_none hle, Option.getD_none, BitVec.getLsbD_zero] at h
  cases h

theorem bitAt_replicate (n : Nat) (w : Word) (i : Nat) :
    bitAt (List.replicate n w) i = (decide (i / 64 < n) && w.getLsbD (i % 64)) := by
  rw [bitAt, List.getElem?_replicate]
  by_cases hi : i / 64 < n <;> simp [hi]

theorem bitAt_set (hk : k < words.length) (w : Word) (i : Nat) :
    bitAt (words.set k w) i = if i / 64 = k then w.getLsbD (i % 64) else bitAt words i := by
  rw [bitAt, List.getElem?_set]
  by_cases hi : k = i / 64
  · simp [hi, hi ▸ hk]
  · simp [hi, Ne.symm hi, bitAt]

theorem bitAt_zipWith (hlength : words.length = words'.length) {op : Word → Word → Word}
    {f : Bool → Bool → Bool} (hzero : f false false = false)
    (hop : ∀ x y j, (op x y).getLsbD j = f (x.getLsbD j) (y.getLsbD j)) (i : Nat) :
    bitAt (words.zipWith op words') i = f (bitAt words i) (bitAt words' i) := by
  unfold bitAt
  rw [List.getElem?_zipWith]
  by_cases hi : i / 64 < words.length
  · rw [List.getElem?_eq_getElem hi, List.getElem?_eq_getElem (hlength ▸ hi)]
    simp [hop]
  · have hi' : words'.length ≤ i / 64 := by omega
    rw [List.getElem?_eq_none (Nat.le_of_not_lt hi), List.getElem?_eq_none hi']
    simp [hzero]

/-- Words with the same bits are the same words. -/
theorem eq_of_bitAt (hlength : words.length = words'.length)
    (h : ∀ i, bitAt words i = bitAt words' i) : words = words' := by
  refine List.ext_getElem hlength fun k hk hk' => BitVec.eq_of_getLsbD_eq fun j hj => ?_
  have hdiv : (64 * k + j) / 64 = k := by omega
  have hmod : (64 * k + j) % 64 = j := by omega
  have hbit := h (64 * k + j)
  simpa [bitAt, hdiv, hmod, hk, hk'] using hbit

theorem getLsbD_mask (element j : Nat) : (mask element).getLsbD j = decide (j = element % 64) := by
  have hlt : element % 64 < 64 := Nat.mod_lt _ (by decide)
  have htwo : mask element = BitVec.twoPow 64 (element % 64) := rfl
  rw [htwo, BitVec.getLsbD_twoPow]
  simp [hlt, eq_comm]

/-- The mask of an element asks for its bit. -/
theorem and_mask_bne (w : Word) (element : Nat) :
    (w &&& mask element != 0#64) = w.getLsbD (element % 64) := by
  have hbit : (w &&& mask element).getLsbD (element % 64) = w.getLsbD (element % 64) := by
    simp [getLsbD_mask]
  cases hw : w.getLsbD (element % 64) with
  | true =>
      rw [hw] at hbit
      rw [bne_iff_ne]
      intro hzero
      rw [hzero, BitVec.getLsbD_zero] at hbit
      cases hbit
  | false =>
      have hzero : w &&& mask element = 0#64 := by
        refine BitVec.eq_of_getLsbD_eq fun j _ => ?_
        rw [BitVec.getLsbD_and, getLsbD_mask, BitVec.getLsbD_zero]
        by_cases hj : j = element % 64 <;> simp [hj, hw]
      simp [hzero]

/-- A position and an element are one when word and bit are. -/
theorem eq_iff_div_mod : i = element ↔ i / 64 = element / 64 ∧ i % 64 = element % 64 := by
  omega

/-! ## The lowest bit -/

/-- Taking one away from a number clears its lowest bit and sets those below,
so that the number and its predecessor share the bits above. -/
theorem testBit_and_pred {n k : Nat} (hk : n.testBit k = true)
    (hlow : ∀ i < k, n.testBit i = false) (j : Nat) :
    (n &&& (n - 1)).testBit j = (n.testBit j && decide (j ≠ k)) := by
  have hpow : 2 ^ k < 2 ^ (k + 1) := Nat.pow_lt_pow_right (by decide) (Nat.lt_succ_self k)
  have hmod : n % 2 ^ (k + 1) = 2 ^ k := by
    refine Nat.eq_of_testBit_eq fun i => ?_
    rw [Nat.testBit_mod_two_pow, Nat.testBit_two_pow]
    rcases Nat.lt_trichotomy i k with hi | rfl | hi
    · simp [hlow i hi, Nat.ne_of_gt hi]
    · simp [hk]
    · have hnot : ¬ i < k + 1 := by omega
      simp [hnot, Nat.ne_of_lt hi]
  obtain ⟨high, hhigh⟩ : ∃ high, n = 2 ^ (k + 1) * high + 2 ^ k :=
    ⟨n / 2 ^ (k + 1), by rw [← hmod, Nat.div_add_mod]⟩
  have hpred : n - 1 = 2 ^ (k + 1) * high + (2 ^ k - 1) := by
    have hpos := Nat.two_pow_pos k
    omega
  rw [Nat.testBit_and, hpred, Nat.testBit_two_pow_mul_add _ (by omega)]
  by_cases hj : j < k + 1
  · rw [if_pos hj, Nat.testBit_two_pow_sub_one]
    rcases Nat.lt_or_eq_of_le (Nat.le_of_lt_succ hj) with hlt | rfl
    · simp [hlow j hlt]
    · simp
  · rw [if_neg hj, hhigh, Nat.testBit_two_pow_mul_add _ hpow, if_neg hj]
    have hne : j ≠ k := by omega
    simp [hne]

theorem toNat_pred (hw : w ≠ 0#64) : (w - 1#64).toNat = w.toNat - 1 := by
  refine BitVec.toNat_sub_of_le ?_
  have hpos : w.toNat ≠ 0 := fun h => hw (BitVec.eq_of_toNat_eq h)
  rw [BitVec.le_def]
  show 1 ≤ w.toNat
  omega

/-- **Clearing the lowest bit** changes no other bit. -/
theorem getLsbD_clearLowest (hw : w ≠ 0#64) (j : Nat) :
    (w &&& (w - 1#64)).getLsbD j = (w.getLsbD j && decide (j ≠ w.ctz.toNat)) := by
  rw [← BitVec.testBit_toNat, BitVec.toNat_and, toNat_pred hw]
  exact testBit_and_pred (BitVec.getLsbD_true_ctz_of_ne_zero hw)
    (fun i hi => BitVec.getLsbD_false_of_lt_ctz hi) j

theorem toNat_clearLowest_lt (hw : w ≠ 0#64) : (w &&& (w - 1#64)).toNat < w.toNat := by
  have hpos : w.toNat ≠ 0 := fun h => hw (BitVec.eq_of_toNat_eq h)
  rw [BitVec.toNat_and, toNat_pred hw]
  have hle : w.toNat &&& (w.toNat - 1) ≤ w.toNat - 1 := Nat.and_le_right
  omega

/-! ## What the cursor yields -/

namespace Cursor

variable {c c' : Cursor}

/-- The elements that are still to come. -/
def pending (c : Cursor) (i : Nat) : Bool :=
  if i / 64 = c.index then c.current.getLsbD (i % 64)
  else decide (c.index < i / 64) && bitAt c.words i

/-- Moving on from a word that is used up skips nothing. -/
theorem pending_move (hcurrent : c.current = 0#64) (hw : c.words[c.index + 1]? = some w) (i : Nat) :
    pending { c with index := c.index + 1, current := w } i = c.pending i := by
  unfold pending
  rcases Nat.lt_trichotomy (i / 64) (c.index + 1) with hlt | heq | hgt
  · have hno : ¬ c.index + 1 < i / 64 := by omega
    have hno' : ¬ c.index < i / 64 := by omega
    simp [Nat.ne_of_lt hlt, hno, hno', hcurrent]
  · have hbit : bitAt c.words i = w.getLsbD (i % 64) := bitAt_of_getElem? (heq ▸ hw)
    have hne : ¬ i / 64 = c.index := by omega
    have hlt : c.index < i / 64 := by omega
    simp [heq, hbit]
  · have hne : ¬ i / 64 = c.index := by omega
    have hlt : c.index < i / 64 := by omega
    simp [Nat.ne_of_gt hgt, hgt, hne, hlt]

theorem next_eq_none (h : c.next = none) (i : Nat) : c.pending i = false := by
  fun_induction next c with
  | case1 c hcurrent => cases h
  | case2 c hcurrent hend =>
      have hlength := List.getElem?_eq_none_iff.1 hend
      have hzero : c.current = 0#64 := Decidable.not_not.1 hcurrent
      unfold pending
      split
      · rw [hzero, BitVec.getLsbD_zero]
      · cases hbit : bitAt c.words i with
        | false => rw [Bool.and_false]
        | true =>
            have hlt := lt_of_bitAt hbit
            rw [Bool.and_true, decide_eq_false_iff_not]
            omega
  | case3 c hcurrent w hw ih =>
      rw [← pending_move (Decidable.not_not.1 hcurrent) hw]
      exact ih h

/-- **One step** of the cursor yields the least element to come, and leaves the
others. -/
theorem next_eq_some (h : c.next = some (i, c')) :
    c.pending i = true ∧ (∀ j, c.pending j = true → i ≤ j) ∧
      ∀ j, c'.pending j = (c.pending j && decide (j ≠ i)) := by
  fun_induction next c with
  | case1 c hcurrent =>
      obtain ⟨rfl, rfl⟩ : c.index * 64 + c.current.ctz.toNat = i ∧
          { c with current := c.current &&& (c.current - 1#64) } = c' := by simpa using h
      have hlowest := BitVec.getLsbD_true_ctz_of_ne_zero hcurrent
      have hlt := BitVec.lt_of_getLsbD hlowest
      have hdiv : (c.index * 64 + c.current.ctz.toNat) / 64 = c.index := by omega
      have hmod : (c.index * 64 + c.current.ctz.toNat) % 64 = c.current.ctz.toNat := by omega
      refine ⟨by simp [pending, hdiv, hmod, hlowest], fun j hj => ?_, fun j => ?_⟩
      · unfold pending at hj
        split at hj
        · next hword =>
          have hle : c.current.ctz.toNat ≤ j % 64 := by
            refine Nat.le_of_not_lt fun hless => ?_
            rw [BitVec.getLsbD_false_of_lt_ctz hless] at hj
            cases hj
          omega
        · simp only [Bool.and_eq_true, decide_eq_true_eq] at hj
          omega
      · unfold pending
        simp only
        split
        · next hword =>
          have hsame : j % 64 ≠ c.current.ctz.toNat ↔ j ≠ c.index * 64 + c.current.ctz.toNat := by
            omega
          rw [getLsbD_clearLowest hcurrent, decide_eq_decide.2 hsame]
        · next hword =>
          have hne : j ≠ c.index * 64 + c.current.ctz.toNat := by omega
          simp [hne]
  | case2 c hcurrent hend => cases h
  | case3 c hcurrent w hw ih =>
      obtain ⟨hmem, hleast, hrest⟩ := ih h
      simp only [pending_move (Decidable.not_not.1 hcurrent) hw] at hmem hleast hrest
      exact ⟨hmem, hleast, hrest⟩

/-- What is left of the words, and then of the current word: this falls with
every step. -/
def ahead (c : Cursor) : Nat × Nat := (c.words.length - c.index, c.current.toNat)

theorem ahead_next (h : c.next = some (i, c')) :
    Prod.Lex (· < ·) (· < ·) c'.ahead c.ahead := by
  fun_induction next c with
  | case1 c hcurrent =>
      obtain ⟨-, rfl⟩ : c.index * 64 + c.current.ctz.toNat = i ∧
          { c with current := c.current &&& (c.current - 1#64) } = c' := by simpa using h
      exact .right _ (toNat_clearLowest_lt hcurrent)
  | case2 c hcurrent hend => cases h
  | case3 c hcurrent w hw ih =>
      have hlt := (List.getElem?_eq_some_iff.1 hw).1
      have hfirst : c'.words.length - c'.index < c.words.length - c.index := by
        rcases Prod.lex_iff.1 (ih h) with hless | ⟨heq, -⟩
        · simp only [ahead] at hless
          omega
        · simp only [ahead] at heq
          omega
      exact .left _ _ hfirst

/-- All elements to come, one step after the other. -/
def collect (c : Cursor) : List Nat :=
  match _hnext : c.next with
  | none => []
  | some (i, c') => i :: collect c'
termination_by c.ahead
decreasing_by exact ahead_next _hnext

/-- Stepping yields these elements and then ends. -/
inductive Yields : Cursor → List Nat → Prop where
  | done {c : Cursor} (h : c.next = none) : Yields c []
  | more {c c' : Cursor} {i : Nat} {l : List Nat} (h : c.next = some (i, c'))
      (rest : Yields c' l) : Yields c (i :: l)

theorem yields_collect (c : Cursor) : c.Yields c.collect := by
  fun_induction collect c with
  | case1 c hnext => exact .done hnext
  | case2 c i c' hnext ih => exact .more hnext ih

theorem mem_collect : i ∈ c.collect ↔ c.pending i = true := by
  fun_induction collect c with
  | case1 c hnext => simp [next_eq_none hnext]
  | case2 c k c' hnext ih =>
      obtain ⟨hmem, -, hrest⟩ := next_eq_some hnext
      rw [List.mem_cons, ih, hrest]
      by_cases hik : i = k
      · simp [hik, hmem]
      · simp [hik]

theorem pairwise_collect (c : Cursor) : c.collect.Pairwise (· < ·) := by
  fun_induction collect c with
  | case1 c hnext => exact .nil
  | case2 c k c' hnext ih =>
      obtain ⟨-, hleast, hrest⟩ := next_eq_some hnext
      refine .cons (fun j hj => ?_) ih
      rw [mem_collect, hrest, Bool.and_eq_true, decide_eq_true_eq] at hj
      exact Nat.lt_of_le_of_ne (hleast j hj.1) hj.2.symm

end Cursor

theorem pending_iter (p : PackedSet) (i : Nat) : p.iter.pending i = bitAt p.words i := by
  unfold Cursor.pending iter
  by_cases hi : i / 64 = 0
  · simp [hi, bitAt, List.head?_eq_getElem?]
  · simp [hi, Nat.pos_of_ne_zero hi]

end PackedSet

end MethodFlow
