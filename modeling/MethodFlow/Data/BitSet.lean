/-!
# Bit sets of a fixed capacity

A `BitSet` is a set of numbers below its capacity, held as the bits of one number.  The bound is
part of the type: no bit at or above the capacity is ever set.

`add`, `remove`, `join` and `meet` are the plain set operations.  The operations that users call
(`insert`, `erase`, `unionWith`, `intersectWith`, `isSubset`) check their arguments first, refuse
misuse, and report whether the set has changed.

## Main results

* `BitSet.contains_add`, `BitSet.contains_remove`, `BitSet.contains_meet`,
  `BitSet.contains_join` : membership after each operation.
* `BitSet.toList_eq_filter`, `BitSet.mem_toList` : the list of members holds exactly the members,
  in ascending order.
-/

namespace MethodFlow

/-- A set of numbers below `capacity`; number `i` is a member when bit `i` of `bits` is set. -/
structure BitSet where
  capacity : Nat
  bits : Nat
  bits_lt : bits < 1 <<< capacity
  deriving DecidableEq

namespace BitSet

/-- A call that a bit set refuses. -/
inductive Misuse where
  /-- The element does not lie below the capacity. -/
  | outOfBounds (element capacity : Nat)
  /-- The two sets have different capacities. -/
  | capacityMismatch
  deriving DecidableEq, Repr

/-- The text that describes the refused call. -/
def Misuse.message : Misuse → String
  | .outOfBounds element capacity =>
    s!"element {element} out of bounds for bit set of capacity {capacity}"
  | .capacityMismatch => "bit sets must have same capacity"

/-! ## Bounds on bit numbers -/

theorem one_shiftLeft_pos (n : Nat) : 0 < 1 <<< n := by
  rw [Nat.one_shiftLeft]
  exact Nat.two_pow_pos n

theorem one_shiftLeft_lt {m n : Nat} (h : m < n) : 1 <<< m < 1 <<< n := by
  rw [Nat.one_shiftLeft, Nat.one_shiftLeft]
  exact Nat.pow_lt_pow_right (by decide) h

theorem or_lt_one_shiftLeft {a b n : Nat} (ha : a < 1 <<< n) (hb : b < 1 <<< n) :
    a ||| b < 1 <<< n := by
  rw [Nat.one_shiftLeft] at *
  exact Nat.or_lt_two_pow ha hb

/-! ## Plain set operations -/

/-- The set without members. -/
def empty (capacity : Nat) : BitSet := ⟨capacity, 0, one_shiftLeft_pos capacity⟩

/-- The set of all numbers below the capacity. -/
def full (capacity : Nat) : BitSet :=
  ⟨capacity, 1 <<< capacity - 1, Nat.sub_lt (one_shiftLeft_pos capacity) (by decide)⟩

instance : Inhabited BitSet := ⟨empty 0⟩

/-- Whether `i` is a member. -/
def contains (s : BitSet) (i : Nat) : Bool := s.bits.testBit i

/-- The set with `i` added; a number beyond the capacity is not added. -/
def add (s : BitSet) (i : Nat) : BitSet :=
  if h : i < s.capacity then
    ⟨s.capacity, s.bits ||| 1 <<< i, or_lt_one_shiftLeft s.bits_lt (one_shiftLeft_lt h)⟩
  else s

/-- The set without `i`. -/
def remove (s : BitSet) (i : Nat) : BitSet :=
  if i < s.capacity then
    ⟨s.capacity, s.bits &&& (s.bits ^^^ 1 <<< i),
      Nat.lt_of_le_of_lt Nat.and_le_left s.bits_lt⟩
  else s

/-- The members that both sets share. -/
def meet (s t : BitSet) : BitSet :=
  ⟨s.capacity, s.bits &&& t.bits, Nat.lt_of_le_of_lt Nat.and_le_left s.bits_lt⟩

/-- The members of either set, for sets of one capacity. -/
def join (s t : BitSet) (h : t.capacity = s.capacity) : BitSet :=
  ⟨s.capacity, s.bits ||| t.bits, or_lt_one_shiftLeft s.bits_lt (h ▸ t.bits_lt)⟩

/-- The positions of the set bits among the lowest `1 <<< depth`, ascending and counted from
`base`: those of the lower half, then those of the upper half.  A half without a set bit is
passed over at once. -/
def setBits (base : Nat) : (depth bits : Nat) → List Nat
  | 0, bits => if bits.testBit 0 then [base] else []
  | depth + 1, bits =>
    if bits = 0 then []
    else
      let half := 1 <<< depth
      setBits base depth (bits &&& (1 <<< half - 1)) ++
        setBits (base + half) depth (bits >>> half)

/-- The members, ascending. -/
def toList (s : BitSet) : List Nat := setBits 0 (s.capacity.log2 + 1) s.bits

/-- The number of members. -/
def count (s : BitSet) : Nat := s.toList.length

/-- Whether there is no member. -/
def isEmpty (s : BitSet) : Bool := s.bits == 0

/-- The members between braces. -/
def render (s : BitSet) : String :=
  "\x7b" ++ ", ".intercalate (s.toList.map fun i => toString i) ++ "\x7d"

/-! ## Checked operations -/

/-- The set of one member below the capacity. -/
def singleton (capacity element : Nat) : Except Misuse BitSet :=
  if element < capacity then .ok ((empty capacity).add element)
  else .error (.outOfBounds element capacity)

/-- Adds an element; also tells whether it is new. -/
def insert (s : BitSet) (element : Nat) : Except Misuse (BitSet × Bool) :=
  if element < s.capacity then .ok (s.add element, !s.contains element)
  else .error (.outOfBounds element s.capacity)

/-- Removes an element; also tells whether it was a member. -/
def erase (s : BitSet) (element : Nat) : Except Misuse (BitSet × Bool) :=
  if element < s.capacity then .ok (s.remove element, s.contains element)
  else .error (.outOfBounds element s.capacity)

/-- Adds the members of `t`; also tells whether the set has grown. -/
def unionWith (s t : BitSet) : Except Misuse (BitSet × Bool) :=
  if h : t.capacity = s.capacity then
    let result := s.join t h
    .ok (result, result.bits != s.bits)
  else .error .capacityMismatch

/-- Keeps the members of `t`; also tells whether the set has shrunk. -/
def intersectWith (s t : BitSet) : Except Misuse (BitSet × Bool) :=
  if t.capacity = s.capacity then
    let result := s.meet t
    .ok (result, result.bits != s.bits)
  else .error .capacityMismatch

/-- Whether every member belongs to `t`. -/
def isSubset (s t : BitSet) : Except Misuse Bool :=
  if t.capacity = s.capacity then .ok ((s.meet t).bits == s.bits)
  else .error .capacityMismatch

/-! ## Membership -/

theorem lt_capacity_of_contains {s : BitSet} {i : Nat} (h : s.contains i = true) :
    i < s.capacity := by
  refine Nat.lt_of_not_le fun hle => ?_
  have hbits := s.bits_lt
  rw [Nat.one_shiftLeft] at hbits
  have hlt := Nat.lt_of_lt_of_le hbits (Nat.pow_le_pow_right (by decide) hle)
  rw [contains, Nat.testBit_lt_two_pow hlt] at h
  exact absurd h (by decide)

@[simp] theorem contains_empty (capacity i : Nat) : (empty capacity).contains i = false := by
  simp [contains, empty]

@[simp] theorem contains_full (capacity i : Nat) :
    (full capacity).contains i = decide (i < capacity) := by
  simp [contains, full, Nat.one_shiftLeft, Nat.testBit_two_pow_sub_one]

@[simp] theorem capacity_add (s : BitSet) (i : Nat) : (s.add i).capacity = s.capacity := by
  unfold add
  split <;> rfl

@[simp] theorem capacity_remove (s : BitSet) (i : Nat) : (s.remove i).capacity = s.capacity := by
  unfold remove
  split <;> rfl

@[simp] theorem capacity_meet (s t : BitSet) : (s.meet t).capacity = s.capacity := rfl

@[simp] theorem contains_add (s : BitSet) (i j : Nat) :
    (s.add i).contains j = (s.contains j || (decide (j = i) && decide (i < s.capacity))) := by
  unfold add
  split
  · next h =>
    simp only [contains, Nat.testBit_or, h, decide_true, Bool.and_true]
    rw [Nat.one_shiftLeft, Nat.testBit_two_pow]
    simp only [eq_comm]
  · next h => simp [h]

@[simp] theorem contains_remove (s : BitSet) (i j : Nat) :
    (s.remove i).contains j = (s.contains j && decide (j ≠ i)) := by
  unfold remove
  split
  · next h =>
    simp only [contains, Nat.testBit_and, Nat.testBit_xor, Nat.one_shiftLeft,
      Nat.testBit_two_pow]
    by_cases hji : j = i
    · subst hji
      cases s.bits.testBit j <;> simp
    · cases s.bits.testBit j <;> simp [hji, Ne.symm hji]
  · next h =>
    by_cases hji : j = i
    · subst hji
      cases hc : s.contains j with
      | false => rfl
      | true => exact absurd (lt_capacity_of_contains hc) h
    · simp [hji]

@[simp] theorem contains_meet (s t : BitSet) (i : Nat) :
    (s.meet t).contains i = (s.contains i && t.contains i) := by
  simp [contains, meet, Nat.testBit_and]

@[simp] theorem contains_join (s t : BitSet) (h : t.capacity = s.capacity) (i : Nat) :
    (s.join t h).contains i = (s.contains i || t.contains i) := by
  simp [contains, join, Nat.testBit_or]

/-! ## The list of members -/

theorem filter_testBit_low (bits half : Nat) :
    (List.range half).filter (bits &&& (1 <<< half - 1)).testBit =
      (List.range half).filter bits.testBit := by
  refine List.filter_congr fun i hi => ?_
  rw [Nat.testBit_and, Nat.one_shiftLeft, Nat.testBit_two_pow_sub_one]
  simp [List.mem_range.1 hi]

theorem testBit_high (bits half : Nat) :
    (bits >>> half).testBit = bits.testBit ∘ (half + ·) :=
  funext fun _ => Nat.testBit_shiftRight bits

theorem setBits_eq_filter (base depth bits : Nat) :
    setBits base depth bits =
      ((List.range (1 <<< depth)).filter bits.testBit).map (base + ·) := by
  induction depth generalizing base bits with
  | zero => cases h : bits.testBit 0 <;> simp [setBits, List.range_succ, h]
  | succ depth ih =>
    have hsize : 1 <<< (depth + 1) = 1 <<< depth + 1 <<< depth := by
      simp only [Nat.one_shiftLeft, Nat.pow_succ]
      omega
    rw [setBits]
    split
    · next h => simp [h]
    · next h =>
      simp only [ih, filter_testBit_low, testBit_high, hsize, List.range_add,
        List.filter_append, List.map_append, List.filter_map, List.map_map]
      congr 2
      funext i
      exact Nat.add_assoc base (1 <<< depth) i

/-- The list of members is the list of all numbers below the capacity that are members. -/
theorem toList_eq_filter (s : BitSet) :
    s.toList = (List.range s.capacity).filter s.contains := by
  have hlt : s.capacity < 1 <<< (s.capacity.log2 + 1) := by
    rw [Nat.one_shiftLeft]
    exact Nat.lt_log2_self
  have hall : s.toList =
      (List.range (1 <<< (s.capacity.log2 + 1))).filter s.contains := by
    simp only [toList, setBits_eq_filter, Nat.zero_add, List.map_id']
    rfl
  obtain ⟨above, habove⟩ := Nat.exists_eq_add_of_lt hlt
  rw [hall, habove, Nat.add_assoc, List.range_add, List.filter_append, List.append_right_eq_self,
    List.filter_eq_nil_iff]
  intro i hi hc
  obtain ⟨j, -, rfl⟩ := List.mem_map.1 hi
  exact absurd (lt_capacity_of_contains hc) (Nat.not_lt.2 (Nat.le_add_right _ _))

@[simp] theorem mem_toList {s : BitSet} {i : Nat} : i ∈ s.toList ↔ s.contains i = true := by
  rw [toList_eq_filter, List.mem_filter, List.mem_range]
  exact ⟨And.right, fun h => ⟨lt_capacity_of_contains h, h⟩⟩

/-- **Extensionality**: bit sets of one capacity with the same members are equal. -/
theorem ext_contains {s t : BitSet} (hcap : s.capacity = t.capacity)
    (h : ∀ i, s.contains i = t.contains i) : s = t := by
  have hbits : s.bits = t.bits := Nat.eq_of_testBit_eq h
  cases s; cases t; cases hcap; cases hbits; rfl

end BitSet

end MethodFlow
