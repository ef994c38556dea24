import Mathlib.Data.Finset.Sort
import MethodFlow.Data.BitSet

/-!
# Bit sets behave as finite sets

`SetOps` lists everything that can be done with, and asked about, sets of
numbers below a capacity, and leaves open how such a set is represented.  Calls
on named sets are run over any representation, and the `transcript` of a
sequence of calls is the list of their answers, failures included.

Two representations cannot be told apart when one simulates the other: related
sets answer alike and stay related (`SetOps.Simulates`).  One lemma for a call
and one for a sequence of calls turn this into equal transcripts.  The
representation to compare with is `FiniteSet`, where the members are a `Finset`
and every operation is the set operation of that name.

## Main results

* `SetOps.Simulates.step`, `SetOps.Simulates.transcript_eq`: one call and any
  sequence of calls.
* `BitSet.simulates`: bit sets simulate finite sets.
-/

namespace MethodFlow

/-! ## Sets of any representation -/

/-- Why a call fails. -/
inductive SetFault where
  /-- The call is not allowed. -/
  | refused (misuse : BitSet.Misuse)
  /-- The representation lacks a word that the call reads. -/
  | wordMissing (index : Nat)
  deriving DecidableEq

/-- Sets of numbers below a capacity, represented as `σ`.  Operations that
change a set also tell whether they have changed it. -/
structure SetOps (σ : Type) where
  new (capacity : Nat) : σ
  full (capacity : Nat) : σ
  singleton (capacity element : Nat) : Except SetFault σ
  insert (s : σ) (element : Nat) : Except SetFault (σ × Bool)
  erase (s : σ) (element : Nat) : Except SetFault (σ × Bool)
  unionWith (s t : σ) : Except SetFault (σ × Bool)
  intersectWith (s t : σ) : Except SetFault (σ × Bool)
  capacity (s : σ) : Nat
  contains (s : σ) (element : Nat) : Except SetFault Bool
  count (s : σ) : Nat
  isEmpty (s : σ) : Bool
  isSubset (s t : σ) : Except SetFault Bool
  equal (s t : σ) : Bool
  /-- The elements, as iteration yields them until it ends. -/
  elements (s : σ) : List Nat

/-- A call on named sets. -/
inductive SetCall where
  | new (x : String) (capacity : Nat)
  | full (x : String) (capacity : Nat)
  | singleton (x : String) (capacity element : Nat)
  | insert (x : String) (element : Nat)
  | erase (x : String) (element : Nat)
  | unionWith (x y : String)
  | intersectWith (x y : String)
  | capacity (x : String)
  | contains (x : String) (element : Nat)
  | count (x : String)
  | isEmpty (x : String)
  | isSubset (x y : String)
  | equal (x y : String)
  | elements (x : String)

/-- What a call answers. -/
inductive SetAnswer where
  | done
  | flag (value : Bool)
  | number (value : Nat)
  | list (elements : List Nat)
  | failed (fault : SetFault)
  deriving DecidableEq

namespace SetOps

variable {σ τ : Type}

/-- Makes a set, unless that fails. -/
def place (sets : String → σ) (x : String) : Except SetFault σ → (String → σ) × SetAnswer
  | .ok s => (Function.update sets x s, .done)
  | .error fault => (sets, .failed fault)

/-- Puts the result of an operation in the place of a set; an operation that
fails leaves the set as it is. -/
def replace (sets : String → σ) (x : String) :
    Except SetFault (σ × Bool) → (String → σ) × SetAnswer
  | .ok (s, changed) => (Function.update sets x s, .flag changed)
  | .error fault => (sets, .failed fault)

/-- The answer to a question that may fail. -/
def tell : Except SetFault Bool → SetAnswer
  | .ok value => .flag value
  | .error fault => .failed fault

/-- The sets behind a call, and its answer. -/
def step (ops : SetOps σ) (sets : String → σ) : SetCall → (String → σ) × SetAnswer
  | .new x capacity => place sets x (.ok (ops.new capacity))
  | .full x capacity => place sets x (.ok (ops.full capacity))
  | .singleton x capacity element => place sets x (ops.singleton capacity element)
  | .insert x element => replace sets x (ops.insert (sets x) element)
  | .erase x element => replace sets x (ops.erase (sets x) element)
  | .unionWith x y => replace sets x (ops.unionWith (sets x) (sets y))
  | .intersectWith x y => replace sets x (ops.intersectWith (sets x) (sets y))
  | .capacity x => (sets, .number (ops.capacity (sets x)))
  | .contains x element => (sets, tell (ops.contains (sets x) element))
  | .count x => (sets, .number (ops.count (sets x)))
  | .isEmpty x => (sets, .flag (ops.isEmpty (sets x)))
  | .isSubset x y => (sets, tell (ops.isSubset (sets x) (sets y)))
  | .equal x y => (sets, .flag (ops.equal (sets x) (sets y)))
  | .elements x => (sets, .list (ops.elements (sets x)))

/-- The sets that calls lead to from the given sets. -/
def run (ops : SetOps σ) (sets : String → σ) (calls : List SetCall) : String → σ :=
  calls.foldl (fun sets c => (ops.step sets c).1) sets

/-- The answers to calls, starting with the given sets. -/
def answers (ops : SetOps σ) (sets : String → σ) : List SetCall → List SetAnswer
  | [] => []
  | c :: rest => (ops.step sets c).2 :: answers ops (ops.step sets c).1 rest

/-- At first every set is empty and has no room. -/
def start (ops : SetOps σ) : String → σ := fun _ => ops.new 0

/-- The sets that a sequence of calls leads to. -/
def after (ops : SetOps σ) (calls : List SetCall) : String → σ := ops.run ops.start calls

/-- The answers to a sequence of calls. -/
def transcript (ops : SetOps σ) (calls : List SetCall) : List SetAnswer :=
  ops.answers ops.start calls

/-! ## Simulation -/

/-- Results that agree: both succeed with related values, or both fail for the
same reason. -/
inductive Matches {α β : Type} (R : α → β → Prop) :
    Except SetFault α → Except SetFault β → Prop where
  | ok {a : α} {b : β} (h : R a b) : Matches R (.ok a) (.ok b)
  | error (fault : SetFault) : Matches R (.error fault) (.error fault)

/-- Related sets, and the same report of a change. -/
def Alike (R : σ → τ → Prop) (a : σ × Bool) (b : τ × Bool) : Prop := R a.1 b.1 ∧ a.2 = b.2

/-- Related sets answer alike and stay related. -/
structure Simulates (ops : SetOps σ) (spec : SetOps τ) (R : σ → τ → Prop) : Prop where
  new : ∀ capacity, R (ops.new capacity) (spec.new capacity)
  full : ∀ capacity, R (ops.full capacity) (spec.full capacity)
  singleton : ∀ capacity element,
    Matches R (ops.singleton capacity element) (spec.singleton capacity element)
  insert : ∀ {s t}, R s t → ∀ element,
    Matches (Alike R) (ops.insert s element) (spec.insert t element)
  erase : ∀ {s t}, R s t → ∀ element,
    Matches (Alike R) (ops.erase s element) (spec.erase t element)
  unionWith : ∀ {s t s' t'}, R s t → R s' t' →
    Matches (Alike R) (ops.unionWith s s') (spec.unionWith t t')
  intersectWith : ∀ {s t s' t'}, R s t → R s' t' →
    Matches (Alike R) (ops.intersectWith s s') (spec.intersectWith t t')
  capacity : ∀ {s t}, R s t → ops.capacity s = spec.capacity t
  contains : ∀ {s t}, R s t → ∀ element, ops.contains s element = spec.contains t element
  count : ∀ {s t}, R s t → ops.count s = spec.count t
  isEmpty : ∀ {s t}, R s t → ops.isEmpty s = spec.isEmpty t
  isSubset : ∀ {s t s' t'}, R s t → R s' t' → ops.isSubset s s' = spec.isSubset t t'
  equal : ∀ {s t s' t'}, R s t → R s' t' → ops.equal s s' = spec.equal t t'
  elements : ∀ {s t}, R s t → ops.elements s = spec.elements t

/-- The sets of one name are related, whatever the name. -/
def Related (R : σ → τ → Prop) (sets : String → σ) (sets' : String → τ) : Prop :=
  ∀ x, R (sets x) (sets' x)

variable {R : σ → τ → Prop} {ops : SetOps σ} {spec : SetOps τ} {sets : String → σ}
  {sets' : String → τ}

theorem Related.update (h : Related R sets sets') (x : String) {s : σ} {t : τ} (hst : R s t) :
    Related R (Function.update sets x s) (Function.update sets' x t) := by
  intro y
  by_cases hy : y = x
  · subst hy
    rw [Function.update_self, Function.update_self]
    exact hst
  · rw [Function.update_of_ne hy, Function.update_of_ne hy]
    exact h y

theorem Related.place (h : Related R sets sets') (x : String) {a : Except SetFault σ}
    {b : Except SetFault τ} (hab : Matches R a b) :
    Related R (place sets x a).1 (place sets' x b).1 ∧
      (SetOps.place sets x a).2 = (SetOps.place sets' x b).2 := by
  cases hab with
  | ok hst => exact ⟨h.update x hst, rfl⟩
  | error fault => exact ⟨h, rfl⟩

theorem Related.replace (h : Related R sets sets') (x : String) {a : Except SetFault (σ × Bool)}
    {b : Except SetFault (τ × Bool)} (hab : Matches (Alike R) a b) :
    Related R (replace sets x a).1 (replace sets' x b).1 ∧
      (SetOps.replace sets x a).2 = (SetOps.replace sets' x b).2 := by
  cases hab with
  | ok hres => exact ⟨h.update x hres.1, congrArg SetAnswer.flag hres.2⟩
  | error fault => exact ⟨h, rfl⟩

/-- **One call** gives the same answer and related sets. -/
theorem Simulates.step (hsim : Simulates ops spec R) (h : Related R sets sets') (c : SetCall) :
    Related R (ops.step sets c).1 (spec.step sets' c).1 ∧
      (ops.step sets c).2 = (spec.step sets' c).2 := by
  cases c with
  | new x capacity => exact h.place x (.ok (hsim.new capacity))
  | full x capacity => exact h.place x (.ok (hsim.full capacity))
  | singleton x capacity element => exact h.place x (hsim.singleton capacity element)
  | insert x element => exact h.replace x (hsim.insert (h x) element)
  | erase x element => exact h.replace x (hsim.erase (h x) element)
  | unionWith x y => exact h.replace x (hsim.unionWith (h x) (h y))
  | intersectWith x y => exact h.replace x (hsim.intersectWith (h x) (h y))
  | capacity x => exact ⟨h, congrArg SetAnswer.number (hsim.capacity (h x))⟩
  | contains x element =>
      exact ⟨h, congrArg (fun r => tell r) (hsim.contains (h x) element)⟩
  | count x => exact ⟨h, congrArg SetAnswer.number (hsim.count (h x))⟩
  | isEmpty x => exact ⟨h, congrArg SetAnswer.flag (hsim.isEmpty (h x))⟩
  | isSubset x y => exact ⟨h, congrArg (fun r => tell r) (hsim.isSubset (h x) (h y))⟩
  | equal x y => exact ⟨h, congrArg SetAnswer.flag (hsim.equal (h x) (h y))⟩
  | elements x => exact ⟨h, congrArg SetAnswer.list (hsim.elements (h x))⟩

theorem Simulates.related_after (hsim : Simulates ops spec R) (calls : List SetCall) :
    Related R (ops.after calls) (spec.after calls) := by
  have hrun : ∀ sets sets', Related R sets sets' →
      Related R (ops.run sets calls) (spec.run sets' calls) := by
    induction calls with
    | nil => exact fun _ _ h => h
    | cons c rest ih => exact fun _ _ h => ih _ _ (hsim.step h c).1
  exact hrun _ _ fun _ => hsim.new 0

/-- **Any sequence of calls** gives the same answers. -/
theorem Simulates.transcript_eq (hsim : Simulates ops spec R) (calls : List SetCall) :
    ops.transcript calls = spec.transcript calls := by
  have hanswers : ∀ sets sets', Related R sets sets' →
      ops.answers sets calls = spec.answers sets' calls := by
    induction calls with
    | nil => exact fun _ _ _ => rfl
    | cons c rest ih =>
        intro sets sets' h
        obtain ⟨hnext, hanswer⟩ := hsim.step h c
        rw [answers, answers, hanswer, ih _ _ hnext]
  exact hanswers _ _ fun _ => hsim.new 0

end SetOps

/-! ## Finite sets -/

/-- A set of numbers below its capacity. -/
structure FiniteSet where
  capacity : Nat
  members : Finset Nat
  bounded : ∀ i ∈ members, i < capacity
  deriving DecidableEq

namespace FiniteSet

/-- The set with other members, and whether they differ from those before. -/
def become (s : FiniteSet) (members : Finset Nat) (h : ∀ i ∈ members, i < s.capacity) :
    FiniteSet × Bool :=
  (⟨s.capacity, members, h⟩, decide (members ≠ s.members))

def new (capacity : Nat) : FiniteSet := ⟨capacity, ∅, by simp⟩

def full (capacity : Nat) : FiniteSet := ⟨capacity, Finset.range capacity, by simp⟩

def singleton (capacity element : Nat) : Except SetFault FiniteSet :=
  if h : element < capacity then .ok ⟨capacity, {element}, by simpa using h⟩
  else .error (.refused (.outOfBounds element capacity))

def insert (s : FiniteSet) (element : Nat) : Except SetFault (FiniteSet × Bool) :=
  if h : element < s.capacity then
    .ok (s.become (Insert.insert element s.members)
      (Finset.forall_mem_insert .. |>.2 ⟨h, s.bounded⟩))
  else .error (.refused (.outOfBounds element s.capacity))

def erase (s : FiniteSet) (element : Nat) : Except SetFault (FiniteSet × Bool) :=
  if element < s.capacity then
    .ok (s.become (s.members.erase element)
      fun i hi => s.bounded i (Finset.mem_of_mem_erase hi))
  else .error (.refused (.outOfBounds element s.capacity))

def unionWith (s t : FiniteSet) : Except SetFault (FiniteSet × Bool) :=
  if h : t.capacity = s.capacity then
    .ok (s.become (s.members ∪ t.members) fun i hi =>
      (Finset.mem_union.1 hi).elim (s.bounded i) fun ht => h ▸ t.bounded i ht)
  else .error (.refused .capacityMismatch)

def intersectWith (s t : FiniteSet) : Except SetFault (FiniteSet × Bool) :=
  if t.capacity = s.capacity then
    .ok (s.become (s.members ∩ t.members)
      fun i hi => s.bounded i (Finset.mem_of_mem_inter_left hi))
  else .error (.refused .capacityMismatch)

def isSubset (s t : FiniteSet) : Except SetFault Bool :=
  if t.capacity = s.capacity then .ok (decide (s.members ⊆ t.members))
  else .error (.refused .capacityMismatch)

/-- What the operations mean. -/
def ops : SetOps FiniteSet where
  new := new
  full := full
  singleton := singleton
  insert := insert
  erase := erase
  unionWith := unionWith
  intersectWith := intersectWith
  capacity := capacity
  contains s element := .ok (decide (element ∈ s.members))
  count s := s.members.card
  isEmpty s := decide (s.members = ∅)
  isSubset := isSubset
  equal s t := decide (s = t)
  elements s := s.members.sort

variable {s t : FiniteSet}

theorem ext_members (hcapacity : s.capacity = t.capacity)
    (hmembers : ∀ i, i ∈ s.members ↔ i ∈ t.members) : s = t := by
  obtain ⟨capacity, members, bounded⟩ := s
  obtain ⟨capacity', members', bounded'⟩ := t
  obtain rfl : capacity = capacity' := hcapacity
  obtain rfl : members = members' := Finset.ext hmembers
  rfl

/-- The members in order are the only strictly ascending list of them. -/
theorem eq_sort {l : List Nat} (hl : l.Pairwise (· < ·)) (hmem : ∀ i, i ∈ l ↔ i ∈ s.members) :
    l = s.members.sort :=
  hl.eq_of_mem_iff s.members.sortedLT_sort.pairwise fun i => by rw [hmem, Finset.mem_sort]

end FiniteSet

/-! ## Bit sets simulate finite sets -/

namespace BitSet

/-- The operations of bit sets. -/
def ops : SetOps BitSet where
  new := empty
  full := full
  singleton capacity element := (singleton capacity element).mapError .refused
  insert s element := (s.insert element).mapError .refused
  erase s element := (s.erase element).mapError .refused
  unionWith s t := (s.unionWith t).mapError .refused
  intersectWith s t := (s.intersectWith t).mapError .refused
  capacity := capacity
  contains s element := .ok (s.contains element)
  count := count
  isEmpty := isEmpty
  isSubset s t := (s.isSubset t).mapError .refused
  equal s t := s == t
  elements := toList

/-- The bit set has the members of the finite set. -/
structure Shows (s : BitSet) (f : FiniteSet) : Prop where
  capacity_eq : s.capacity = f.capacity
  contains_iff : ∀ i, s.contains i = true ↔ i ∈ f.members

variable {s s' : BitSet} {f f' : FiniteSet}

theorem Shows.contains_eq (h : s.Shows f) (i : Nat) : s.contains i = decide (i ∈ f.members) := by
  rw [Bool.eq_iff_iff, h.contains_iff, decide_eq_true_iff]

/-- Bits tell members apart. -/
theorem Shows.bits_eq_iff (h : s.Shows f) (h' : s'.Shows f') :
    s.bits = s'.bits ↔ f.members = f'.members := by
  constructor
  · intro hbits
    ext i
    rw [← h.contains_iff, ← h'.contains_iff, contains, contains, hbits]
  · intro hmembers
    refine Nat.eq_of_testBit_eq fun i => ?_
    have hi : s.contains i = s'.contains i := by rw [h.contains_eq, h'.contains_eq, hmembers]
    exact hi

/-- A bit set that shows the new members tells a change by its bits. -/
theorem Shows.become {members : Finset Nat} (h : s.Shows f)
    {hbounded : ∀ i ∈ members, i < f.capacity} (hcapacity : s'.capacity = s.capacity)
    (hcontains : ∀ i, s'.contains i = true ↔ i ∈ members) :
    SetOps.Alike Shows (s', s'.bits != s.bits) (f.become members hbounded) := by
  have hshows : s'.Shows ⟨f.capacity, members, hbounded⟩ :=
    ⟨hcapacity.trans h.capacity_eq, hcontains⟩
  have hbits : s'.bits = s.bits ↔ members = f.members := hshows.bits_eq_iff h
  refine ⟨hshows, ?_⟩
  by_cases hsame : members = f.members
  · simp [FiniteSet.become, hsame, hbits.2 hsame]
  · simp [FiniteSet.become, hsame, mt hbits.1 hsame]

theorem Shows.insert (h : s.Shows f) (element : Nat) :
    SetOps.Matches (SetOps.Alike Shows) (ops.insert s element) (f.insert element) := by
  simp only [ops, BitSet.insert, FiniteSet.insert, h.capacity_eq]
  split
  · next hlt =>
    refine .ok ⟨⟨(capacity_add s element).trans h.capacity_eq, fun i => ?_⟩, ?_⟩
    · simp [FiniteSet.become, h.contains_eq, h.capacity_eq, hlt, or_comm]
    · simp [FiniteSet.become, h.contains_eq]
  · exact .error _

theorem Shows.erase (h : s.Shows f) (element : Nat) :
    SetOps.Matches (SetOps.Alike Shows) (ops.erase s element) (f.erase element) := by
  simp only [ops, BitSet.erase, FiniteSet.erase, h.capacity_eq]
  split
  · refine .ok ⟨⟨(capacity_remove s element).trans h.capacity_eq, fun i => ?_⟩, ?_⟩
    · simp [FiniteSet.become, h.contains_eq, and_comm]
    · simp [FiniteSet.become, h.contains_eq]
  · exact .error _

theorem Shows.unionWith (h : s.Shows f) (h' : s'.Shows f') :
    SetOps.Matches (SetOps.Alike Shows) (ops.unionWith s s') (f.unionWith f') := by
  by_cases hcapacity : s'.capacity = s.capacity
  · have hfinite : f'.capacity = f.capacity := by
      rw [← h.capacity_eq, ← h'.capacity_eq, hcapacity]
    simp only [ops, BitSet.unionWith, FiniteSet.unionWith, dif_pos hcapacity, dif_pos hfinite]
    exact .ok (h.become rfl fun i => by simp [h.contains_eq, h'.contains_eq])
  · have hfinite : ¬ f'.capacity = f.capacity := by
      rw [← h.capacity_eq, ← h'.capacity_eq]
      exact hcapacity
    simp only [ops, BitSet.unionWith, FiniteSet.unionWith, dif_neg hcapacity, dif_neg hfinite]
    exact .error _

theorem Shows.intersectWith (h : s.Shows f) (h' : s'.Shows f') :
    SetOps.Matches (SetOps.Alike Shows) (ops.intersectWith s s') (f.intersectWith f') := by
  simp only [ops, BitSet.intersectWith, FiniteSet.intersectWith, h.capacity_eq, h'.capacity_eq]
  split
  · exact .ok (h.become rfl fun i => by simp [h.contains_eq, h'.contains_eq])
  · exact .error _

theorem Shows.isSubset (h : s.Shows f) (h' : s'.Shows f') :
    ops.isSubset s s' = f.isSubset f' := by
  simp only [ops, BitSet.isSubset, FiniteSet.isSubset, h.capacity_eq, h'.capacity_eq]
  split
  · have hmeet : (s.meet s').Shows ⟨f.capacity, f.members ∩ f'.members,
        fun i hi => f.bounded i (Finset.mem_of_mem_inter_left hi)⟩ :=
      ⟨h.capacity_eq, fun i => by simp [h.contains_eq, h'.contains_eq]⟩
    have hbits := hmeet.bits_eq_iff h
    simp only [Finset.inter_eq_left] at hbits
    by_cases hsub : f.members ⊆ f'.members
    · simp [Except.mapError, hsub, hbits.2 hsub]
    · simp [Except.mapError, hsub, mt hbits.1 hsub]
  · rfl

theorem Shows.eq_iff (h : s.Shows f) (h' : s'.Shows f') : s = s' ↔ f = f' := by
  constructor
  · rintro rfl
    exact FiniteSet.ext_members (h.capacity_eq.symm.trans h'.capacity_eq) fun i => by
      rw [← h.contains_iff, h'.contains_iff]
  · rintro rfl
    exact ext_contains (h.capacity_eq.trans h'.capacity_eq.symm) fun i => by
      rw [h.contains_eq, h'.contains_eq]

theorem Shows.elements (h : s.Shows f) : s.toList = f.members.sort := by
  refine FiniteSet.eq_sort ?_ fun i => by rw [mem_toList, h.contains_iff]
  rw [toList_eq_filter]
  exact List.Pairwise.filter _ List.pairwise_lt_range

/-- **Bit sets simulate finite sets**. -/
theorem simulates : SetOps.Simulates ops FiniteSet.ops Shows where
  new capacity := ⟨rfl, fun i => by simp [ops, FiniteSet.ops, FiniteSet.new]⟩
  full capacity := ⟨rfl, fun i => by simp [ops, FiniteSet.ops, FiniteSet.full]⟩
  singleton capacity element := by
    simp only [ops, FiniteSet.ops, singleton, FiniteSet.singleton]
    split
    · next hlt =>
      refine .ok ⟨capacity_add _ _, fun i => ?_⟩
      have hempty : (empty capacity).capacity = capacity := rfl
      simp [hempty, hlt]
    · exact .error _
  insert h element := h.insert element
  erase h element := h.erase element
  unionWith h h' := h.unionWith h'
  intersectWith h h' := h.intersectWith h'
  capacity h := h.capacity_eq
  contains h element := congrArg Except.ok (h.contains_eq element)
  count {s f} h := by
    show s.toList.length = f.members.card
    rw [h.elements, Finset.length_sort]
  isEmpty {s f} h := by
    have hnone : (empty 0).Shows (FiniteSet.new 0) := ⟨rfl, fun i => by simp [FiniteSet.new]⟩
    have hbits : s.bits = 0 ↔ f.members = ∅ := h.bits_eq_iff hnone
    show (s.bits == 0) = decide (f.members = ∅)
    rw [Bool.eq_iff_iff, beq_iff_eq, hbits, decide_eq_true_iff]
  isSubset h h' := h.isSubset h'
  equal {s f s' f'} h h' := by
    show (s == s') = decide (f = f')
    rw [Bool.eq_iff_iff, beq_iff_eq, h.eq_iff h', decide_eq_true_iff]
  elements h := h.elements

end BitSet

end MethodFlow
