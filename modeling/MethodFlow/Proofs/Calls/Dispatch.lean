import Mathlib.Data.List.Perm.Subperm
import MethodFlow.Calls.Build
import MethodFlow.Proofs.Hierarchy.Subtypes

/-!
# What a dispatched call runs

A call that is dispatched runs, on an object of some type, the first
declaration of its slot on the chain of bases that begins with that type.  The
chain is said here without an end: a type, its base, the base of the base, and
so on as long as the universe holds them.  Bases that form a cycle make it
infinite.

The walk up the chain gives up after a number of steps, one more than the
universe has types.  It misses nothing.  If some type stood twice on the way to
the first declaration, the chain would repeat itself from there on, and so the
declaration would have been met one round earlier.  Hence the types on the way
are all different, and there are no more of them than the universe holds.

What a call may run is then collected over the declaring type and all types
below it, interfaces excepted, since no object is of an interface's type.  The
chain of bases is the only way by which a type is taken to inherit.  A method
that an interface implements is not on the chain of a class that only names the
interface among its own, and a call of it on such a class finds nothing to run.

## Main results

* `Universe.lt_size_of_first`: the first declaration is met early.
* `Universe.declaration?_eq_some_iff`: the walk with a limit finds what the
  chain without an end declares first.
* `Universe.resolve_exact`: what a call may run.
* `Universe.resolve_keeps_declared`: when a concrete method is among the
  callees of its own calls.
-/

namespace MethodFlow

namespace Universe

variable {u : Universe} {slot target : MethodRef} {start : Option TypeDef} {type : TypeName}
  {t : TypeDef} {d e : MethodDef} {i j k : Nat}

/-! ## The chain of bases -/

/-- The base of a type, if it has one and the universe holds it. -/
def base? (u : Universe) (t : TypeDef) : Option TypeDef := t.base.bind u.get?

/-- The type `k` bases above a type. -/
def above? (u : Universe) (start : Option TypeDef) : Nat → Option TypeDef
  | 0 => start
  | k + 1 => (u.above? start k).bind u.base?

/-- The declaration of a slot by the type `k` bases above a type. -/
def declaredAt? (u : Universe) (slot : MethodRef) (start : Option TypeDef) (k : Nat) :
    Option MethodDef :=
  (u.above? start k).bind fun t => t.findMethod? slot

/-- The declaration of a slot is met `k` bases above a type, and none before
it. -/
structure First (u : Universe) (slot : MethodRef) (start : Option TypeDef) (k : Nat)
    (d : MethodDef) : Prop where
  declared : u.declaredAt? slot start k = some d
  before : ∀ j < k, u.declaredAt? slot start j = none

/-- The first declaration of a slot on the chain of bases of a type. -/
def FirstDeclares (u : Universe) (type : TypeName) (slot : MethodRef) (d : MethodDef) : Prop :=
  ∃ k, u.First slot (u.get? type) k d

theorem above?_add (u : Universe) (start : Option TypeDef) (i k : Nat) :
    u.above? start (i + k) = u.above? (u.above? start i) k := by
  induction k with
  | zero => rfl
  | succ k ih =>
      show (u.above? start (i + k)).bind u.base? = _
      rw [ih]
      rfl

theorem above?_none (u : Universe) (k : Nat) : u.above? none k = none := by
  induction k with
  | zero => rfl
  | succ k ih =>
      show (u.above? none k).bind u.base? = none
      rw [ih]
      rfl

theorem declaredAt?_none (u : Universe) (slot : MethodRef) (k : Nat) :
    u.declaredAt? slot none k = none := by
  rw [declaredAt?, above?_none]
  rfl

theorem declaredAt?_succ (u : Universe) (slot : MethodRef) (t : TypeDef) (k : Nat) :
    u.declaredAt? slot (some t) (k + 1) = u.declaredAt? slot (u.base? t) k := by
  rw [declaredAt?, Nat.add_comm k 1, above?_add]
  rfl

/-! ## The walk up the chain -/

/-- A type that declares the slot is the first that does. -/
theorem first_of_declared (hfind : t.findMethod? slot = some e) :
    u.First slot (some t) k d ↔ k = 0 ∧ d = e := by
  have hzero : u.declaredAt? slot (some t) 0 = some e := hfind
  constructor
  · intro h
    cases k with
    | zero => exact ⟨rfl, Option.some.inj (h.declared.symm.trans hzero)⟩
    | succ k =>
        have hnone := h.before 0 (Nat.succ_pos k)
        rw [hzero] at hnone
        cases hnone
  · rintro ⟨rfl, rfl⟩
    exact ⟨hzero, fun j hj => absurd hj (Nat.not_lt_zero j)⟩

/-- A type that does not declare the slot leaves it to its base. -/
theorem first_of_undeclared (hfind : t.findMethod? slot = none) :
    u.First slot (some t) k d ↔ ∃ j, k = j + 1 ∧ u.First slot (u.base? t) j d := by
  have hzero : u.declaredAt? slot (some t) 0 = none := hfind
  constructor
  · intro h
    cases k with
    | zero =>
        have hsome := h.declared
        rw [hzero] at hsome
        cases hsome
    | succ k =>
        refine ⟨k, rfl, ?_, fun j hj => ?_⟩
        · rw [← declaredAt?_succ]
          exact h.declared
        · rw [← declaredAt?_succ]
          exact h.before (j + 1) (Nat.succ_lt_succ hj)
  · rintro ⟨k, rfl, h⟩
    refine ⟨?_, fun j hj => ?_⟩
    · rw [declaredAt?_succ]
      exact h.declared
    · cases j with
      | zero => exact hzero
      | succ j =>
          rw [declaredAt?_succ]
          exact h.before j (Nat.lt_of_succ_lt_succ hj)

theorem not_first_none : ¬ u.First slot none k d := by
  intro h
  have hsome := h.declared
  rw [declaredAt?_none] at hsome
  cases hsome

/-- A walk finds the first declaration unless it is further up than the walk
goes. -/
theorem declaration?_limited (steps : Nat) :
    u.declaration? slot steps start = some d ↔ ∃ k < steps, u.First slot start k d := by
  induction steps generalizing start with
  | zero => simp [declaration?]
  | succ steps ih =>
      cases start with
      | none => simp [declaration?, not_first_none]
      | some t =>
          cases hfind : t.findMethod? slot with
          | some e =>
              have hwalk : u.declaration? slot (steps + 1) (some t) = some e := by
                simp only [declaration?, hfind]
              simp only [hwalk, first_of_declared hfind, Option.some.injEq]
              constructor
              · rintro rfl
                exact ⟨0, Nat.succ_pos steps, rfl, rfl⟩
              · rintro ⟨k, -, -, rfl⟩
                rfl
          | none =>
              have hwalk : u.declaration? slot (steps + 1) (some t) =
                  u.declaration? slot steps (u.base? t) := by
                simp only [declaration?, hfind, base?]
              simp only [hwalk, ih, first_of_undeclared hfind]
              constructor
              · rintro ⟨k, hk, hfirst⟩
                exact ⟨k + 1, Nat.succ_lt_succ hk, k, rfl, hfirst⟩
              · rintro ⟨k, hk, j, rfl, hfirst⟩
                exact ⟨j, Nat.lt_of_succ_lt_succ hk, hfirst⟩

/-! ## No chain is too long -/

theorem mem_toList_of_above? (h : u.above? (u.get? type) k = some t) : t ∈ u.toList := by
  cases k with
  | zero => exact mem_toList_of_get? h
  | succ k =>
      obtain ⟨below, -, hbase⟩ := Option.bind_eq_some_iff.1 h
      obtain ⟨name, -, hget⟩ := Option.bind_eq_some_iff.1 hbase
      exact mem_toList_of_get? hget

/-- No type stands twice on the way to the first declaration: the chain would
repeat itself, and the declaration would have been met before. -/
theorem First.above?_ne (h : u.First slot start k d) (hij : i < j) (hjk : j ≤ k) :
    u.above? start i ≠ u.above? start j := by
  intro heq
  -- As far above the earlier place as `k` is above the later one.
  have hround : u.above? start k = u.above? start (i + (k - j)) := by
    rw [above?_add, heq, ← above?_add, Nat.add_sub_cancel' hjk]
  have hearlier : u.declaredAt? slot start (i + (k - j)) = some d := by
    rw [declaredAt?, ← hround]
    exact h.declared
  rw [h.before (i + (k - j)) (by omega)] at hearlier
  cases hearlier

theorem First.isSome_above? (h : u.First slot start k d) (hjk : j ≤ k) :
    ∃ t, u.above? start j = some t := by
  cases habove : u.above? start j with
  | some t => exact ⟨t, rfl⟩
  | none =>
      have hdeclared := h.declared
      rw [declaredAt?, ← Nat.add_sub_cancel' hjk, above?_add, habove, above?_none] at hdeclared
      cases hdeclared

/-- **The first declaration is met early**: the types on the way to it are
different types of the universe. -/
theorem lt_size_of_first (h : u.First slot (u.get? type) k d) : k < u.size := by
  have hnodup : ((List.range (k + 1)).map (u.above? (u.get? type))).Nodup := by
    refine List.pairwise_map.2 ((List.pairwise_lt_range).imp_of_mem ?_)
    intro i j _ hj hij
    exact h.above?_ne hij (Nat.le_of_lt_succ (List.mem_range.1 hj))
  have hsubset : (List.range (k + 1)).map (u.above? (u.get? type)) ⊆ u.toList.map some := by
    intro x hx
    obtain ⟨j, hj, rfl⟩ := List.mem_map.1 hx
    obtain ⟨t, ht⟩ := h.isSome_above? (Nat.le_of_lt_succ (List.mem_range.1 hj))
    rw [ht]
    exact List.mem_map.2 ⟨t, mem_toList_of_above? ht, rfl⟩
  have hlength := (List.subperm_of_subset hnodup hsubset).length_le
  have hsize : u.toList.length = u.size := by simp [toList, size, SortedMap.values, SortedMap.size]
  simp only [List.length_map, List.length_range] at hlength
  omega

/-- The walk with a limit finds what the chain without an end declares
first. -/
theorem declaration?_eq_some_iff :
    u.declaration? slot (u.size + 1) (u.get? type) = some d ↔ u.FirstDeclares type slot d := by
  rw [declaration?_limited]
  constructor
  · rintro ⟨k, -, hfirst⟩
    exact ⟨k, hfirst⟩
  · rintro ⟨k, hfirst⟩
    exact ⟨k, Nat.lt_succ_of_lt (lt_size_of_first hfirst), hfirst⟩

instance (u : Universe) (type : TypeName) (slot : MethodRef) (d : MethodDef) :
    Decidable (u.FirstDeclares type slot d) :=
  decidable_of_iff _ declaration?_eq_some_iff

theorem implementation?_eq_some_iff :
    u.implementation? type slot = some d ↔
      u.FirstDeclares type slot d ∧ d.isAbstract = false := by
  rw [implementation?, Option.filter_eq_some_iff, declaration?_eq_some_iff]
  simp

/-! ## What a call may run -/

/-- A call that goes to the method it names: the dispatch is static, the method
is declared and not virtual, or its type is not known. -/
def GoesStraight (u : Universe) (target : MethodRef) (dispatch : Dispatch) : Prop :=
  dispatch = .static ∨ (∃ d, u.method? target = some d ∧ d.isVirtual = false) ∨
    u.get? target.declaringType = none

theorem isDispatched_iff {dispatch : Dispatch} :
    u.isDispatched target dispatch = true ↔ ¬ u.GoesStraight target dispatch := by
  cases dispatch with
  | static => simp [isDispatched, GoesStraight]
  | virtual =>
      cases hmethod : u.method? target <;> cases hget : u.get? target.declaringType <;>
        simp [isDispatched, GoesStraight, hmethod, hget]

instance (u : Universe) (target : MethodRef) (dispatch : Dispatch) :
    Decidable (u.GoesStraight target dispatch) :=
  decidable_of_iff (u.isDispatched target dispatch = false) (by
    rw [← Bool.not_eq_true, isDispatched_iff, Classical.not_not])

theorem mem_resolve_of_dispatched {dispatch : Dispatch} {c : MethodRef}
    (h : ¬ u.GoesStraight target dispatch) :
    c ∈ u.resolve (.ofUniverse u) target dispatch ↔
      ∃ type d, u.Under type target.declaringType ∧ ¬ u.DeclaresInterface type ∧
        u.FirstDeclares type target d ∧ d.isAbstract = false ∧ d.reference = c := by
  have hbelow : ∀ type, type ∈ target.declaringType ::
      ((Hierarchy.ofUniverse u).descendants target.declaringType).toList ↔
        u.Under type target.declaringType := by
    intro type
    rw [List.mem_cons, SortedSet.mem_toList, ← Hierarchy.isSubtype_iff_mem_descendants,
      Hierarchy.isSubtype_iff]
  have hclass : ∀ type, (!(Hierarchy.ofUniverse u).isInterface type) = true ↔
      ¬ u.DeclaresInterface type := by
    intro type
    rw [← Hierarchy.isInterface_iff, Bool.not_eq_true', Bool.not_eq_true]
  rw [resolve, if_pos (isDispatched_iff.2 h)]
  simp only [SortedSet.mem_ofList, List.mem_filterMap, List.mem_filter, Option.map_eq_some_iff,
    implementation?_eq_some_iff, hbelow, hclass]
  constructor
  · rintro ⟨type, ⟨hunder, hobject⟩, d, ⟨hfirst, hconcrete⟩, rfl⟩
    exact ⟨type, d, hunder, hobject, hfirst, hconcrete, rfl⟩
  · rintro ⟨type, d, hunder, hobject, hfirst, hconcrete, rfl⟩
    exact ⟨type, ⟨hunder, hobject⟩, d, ⟨hfirst, hconcrete⟩, rfl⟩

/-- **What a call may run.**  A static call, a call of a declared method that is
not virtual and a call on an unknown type go to the method that is named, and to
no other.  Any other call may run the methods, not abstract, that come first on
the chain of bases of the declaring type or of a type below it that is no
interface, and nothing else.  The chain is the one without an end: the limit of
the walk never makes a difference. -/
theorem resolve_exact (u : Universe) (target : MethodRef) (dispatch : Dispatch) :
    (u.GoesStraight target dispatch →
      u.resolve (.ofUniverse u) target dispatch = .singleton target) ∧
    (¬ u.GoesStraight target dispatch → ∀ c,
      c ∈ u.resolve (.ofUniverse u) target dispatch ↔
        ∃ type d, u.Under type target.declaringType ∧ ¬ u.DeclaresInterface type ∧
          u.FirstDeclares type target d ∧ d.isAbstract = false ∧ d.reference = c) ∧
    ∀ type d, u.declaration? target (u.size + 1) (u.get? type) = some d ↔
      u.FirstDeclares type target d := by
  refine ⟨fun h => ?_, fun h c => mem_resolve_of_dispatched h, fun type d =>
    declaration?_eq_some_iff⟩
  exact if_neg fun hdispatched => isDispatched_iff.1 hdispatched h

/-- A method of a type; the methods of all types are in one slot. -/
def runSlot (type : TypeName) : MethodRef := ⟨type, "Run", "()"⟩

/-- A virtual method with a body. -/
def concreteRun (type : TypeName) : MethodDef where
  reference := runSlot type
  modifiers := ⟨false, false, true, false⟩
  body := some ⟨runSlot type, [], [], [⟨0, .return none⟩], []⟩

/-- A virtual method that is left to others. -/
def abstractRun (type : TypeName) : MethodDef where
  reference := runSlot type
  modifiers := ⟨false, false, true, true⟩
  body := none

/-- Classes whose bases form a cycle, one with a method that another one makes
abstract again, and a class that is its own base. -/
def ring : Universe :=
  .ofList
    [⟨"IRun", .interfaceType, none, [], [abstractRun "IRun"]⟩,
      ⟨"Base", .classType, some "Leaf", [], [concreteRun "Base"]⟩,
      ⟨"Mid", .classType, some "Base", ["IRun"], []⟩,
      ⟨"Shut", .classType, some "Mid", [], [abstractRun "Shut"]⟩,
      ⟨"Leaf", .classType, some "Shut", [], []⟩,
      ⟨"Lone", .classType, some "Lone", ["IRun"], []⟩]

/-- The class in the middle inherits the method, the one at the end is shut off
from it, and the one that is its own base never meets a declaration. -/
theorem resolve_exact_ring :
    ring.GoesStraight (runSlot "IRun") .static ∧
      ring.resolve (.ofUniverse ring) (runSlot "IRun") .static = .singleton (runSlot "IRun") ∧
      ¬ ring.GoesStraight (runSlot "IRun") .virtual ∧
      runSlot "Base" ∈ ring.resolve (.ofUniverse ring) (runSlot "IRun") .virtual ∧
      ring.FirstDeclares "Leaf" (runSlot "IRun") (abstractRun "Shut") ∧
      ¬ ∃ d, ring.FirstDeclares "Lone" (runSlot "IRun") d := by
  have hstatic : ring.GoesStraight (runSlot "IRun") .static := .inl rfl
  have hvirtual : ¬ ring.GoesStraight (runSlot "IRun") .virtual := by decide +kernel
  have hmid : ring.FirstDeclares "Mid" (runSlot "IRun") (concreteRun "Base") := by decide +kernel
  obtain ⟨-, hrun, hwalk⟩ := resolve_exact ring (runSlot "IRun") .virtual
  refine ⟨hstatic, (resolve_exact ring _ _).1 hstatic, hvirtual, ?_, by decide +kernel, ?_⟩
  · exact (hrun hvirtual _).2 ⟨"Mid", concreteRun "Base", by decide +kernel, by decide +kernel,
      hmid, rfl, rfl⟩
  · rintro ⟨d, hd⟩
    have hnone : ring.declaration? (runSlot "IRun") (ring.size + 1) (ring.get? "Lone") = none := by
      decide +kernel
    rw [← hwalk, hnone] at hd
    cases hd

/-! ## A method and its own calls -/

/-- Where the chain declares the slot at all, there is a first declaration. -/
theorem exists_first (h : u.declaredAt? slot start k = some e) :
    ∃ j d, u.First slot start j d := by
  induction k using Nat.strongRecOn generalizing e with
  | _ k ih =>
      by_cases hbefore : ∀ j < k, u.declaredAt? slot start j = none
      · exact ⟨k, e, h, hbefore⟩
      · simp only [Classical.not_forall] at hbefore
        obtain ⟨j, hj, hsome⟩ := hbefore
        obtain ⟨d, hd⟩ := Option.ne_none_iff_exists'.1 hsome
        exact ih j hj hd

/-- A declared method is the first on the chain of its own type. -/
theorem firstDeclares_self (hd : u.method? target = some d) :
    u.FirstDeclares target.declaringType target d := by
  obtain ⟨t, hget, hfind⟩ := Option.bind_eq_some_iff.1 hd
  rw [FirstDeclares, hget]
  exact ⟨0, (first_of_declared hfind).2 ⟨rfl, rfl⟩⟩

/-- **A concrete method is among the callees of its own calls** when some type
below the declaring type, or this type itself, is no interface and has no other
declaration of the slot on its chain of bases, provided that the chain holds
the method if an interface declares it.  For the method of a class nothing needs
to be provided. -/
theorem resolve_keeps_declared (hd : u.method? target = some d) (hvirtual : d.isVirtual = true)
    (hconcrete : d.isAbstract = false) (hunder : u.Under type target.declaringType)
    (hobject : ¬ u.DeclaresInterface type)
    (honly : ∀ k e, u.declaredAt? target (u.get? type) k = some e → e = d)
    (hchain : u.DeclaresInterface target.declaringType →
      ∃ k, u.declaredAt? target (u.get? type) k = some d) :
    d.reference ∈ u.resolve (.ofUniverse u) target .virtual := by
  have hdispatched : ¬ u.GoesStraight target .virtual := by
    rintro (hstatic | ⟨e, he, hnot⟩ | hget)
    · cases hstatic
    · rw [hd, Option.some.injEq] at he
      rw [← he, hvirtual] at hnot
      cases hnot
    · rw [method?, hget] at hd
      cases hd
  rw [mem_resolve_of_dispatched hdispatched]
  by_cases hinterface : u.DeclaresInterface target.declaringType
  · obtain ⟨k, hk⟩ := hchain hinterface
    obtain ⟨j, e, hfirst⟩ := exists_first hk
    obtain rfl : e = d := honly j e hfirst.declared
    exact ⟨type, e, hunder, hobject, ⟨j, hfirst⟩, hconcrete, rfl⟩
  · -- The declaring type itself is searched, whatever the other type is.
    exact ⟨target.declaringType, d, .refl, hinterface, firstDeclares_self hd, hconcrete, rfl⟩

/-- A chain of two types, of which the second declares the slot. -/
private theorem only_of_two {b : TypeDef} (hget : u.get? type = some t)
    (hnone : t.findMethod? slot = none) (hbase : u.base? t = some b)
    (hfind : b.findMethod? slot = some d) (hend : u.base? b = none) :
    ∀ k e, u.declaredAt? slot (u.get? type) k = some e → e = d := by
  intro k e he
  rw [hget] at he
  match k with
  | 0 => exact absurd (hnone.symm.trans he) (by simp)
  | 1 =>
      rw [declaredAt?_succ, hbase] at he
      exact Option.some.inj (he.symm.trans hfind)
  | k + 2 =>
      rw [declaredAt?_succ, hbase, declaredAt?_succ, hend, declaredAt?_none] at he
      cases he

/-- A class with a method that its subclass inherits, and an interface with a
method that a class inherits whose base it is. -/
def heirs : Universe :=
  .ofList
    [⟨"Tool", .classType, none, [], [concreteRun "Tool"]⟩,
      ⟨"Saw", .classType, some "Tool", [], []⟩,
      ⟨"IRun", .interfaceType, none, [], [concreteRun "IRun"]⟩,
      ⟨"Plug", .valueType, some "IRun", [], []⟩]

/-- Both methods are among the callees of their own calls. -/
theorem resolve_keeps_declared_heirs :
    heirs.Under "Saw" "Tool" ∧ ¬ heirs.DeclaresInterface "Saw" ∧
      runSlot "Tool" ∈ heirs.resolve (.ofUniverse heirs) (runSlot "Tool") .virtual ∧
      heirs.DeclaresInterface "IRun" ∧
      runSlot "IRun" ∈ heirs.resolve (.ofUniverse heirs) (runSlot "IRun") .virtual := by
  have hsaw : heirs.Under "Saw" "Tool" ∧ ¬ heirs.DeclaresInterface "Saw" := by decide +kernel
  have hplug : heirs.Under "Plug" "IRun" ∧ ¬ heirs.DeclaresInterface "Plug" := by decide +kernel
  have htool : ¬ heirs.DeclaresInterface "Tool" := by decide +kernel
  refine ⟨hsaw.1, hsaw.2, ?_, by decide +kernel, ?_⟩
  · have honly := @only_of_two heirs (runSlot "Tool") "Saw" ⟨"Saw", .classType, some "Tool", [], []⟩
      (concreteRun "Tool") ⟨"Tool", .classType, none, [], [concreteRun "Tool"]⟩
      (by decide +kernel) (by decide +kernel) (by decide +kernel) (by decide +kernel)
      (by decide +kernel)
    have hd : heirs.method? (runSlot "Tool") = some (concreteRun "Tool") := by decide +kernel
    exact resolve_keeps_declared hd rfl rfl hsaw.1 hsaw.2 honly fun h => absurd h htool
  · have honly := @only_of_two heirs (runSlot "IRun") "Plug" ⟨"Plug", .valueType, some "IRun", [], []⟩
      (concreteRun "IRun") ⟨"IRun", .interfaceType, none, [], [concreteRun "IRun"]⟩
      (by decide +kernel) (by decide +kernel) (by decide +kernel) (by decide +kernel)
      (by decide +kernel)
    have hd : heirs.method? (runSlot "IRun") = some (concreteRun "IRun") := by decide +kernel
    exact resolve_keeps_declared hd rfl rfl hplug.1 hplug.2 honly fun _ => ⟨1, by decide +kernel⟩

/-- An interface with a method that is not abstract, and a class that names the
interface among its own and declares nothing. -/
def mixin : Universe :=
  .ofList
    [⟨"IRun", .interfaceType, none, [], [concreteRun "IRun"]⟩,
      ⟨"Lamp", .classType, none, ["IRun"], []⟩]

/-- **A method that an interface implements is lost.**  The class has no other
declaration of the slot, and yet a call of the method finds nothing to run. -/
theorem resolve_drops_inherited :
    mixin.method? (runSlot "IRun") = some (concreteRun "IRun") ∧
      (concreteRun "IRun").isVirtual = true ∧ (concreteRun "IRun").isAbstract = false ∧
      mixin.Under "Lamp" "IRun" ∧ ¬ mixin.DeclaresInterface "Lamp" ∧
      (∀ k e, mixin.declaredAt? (runSlot "IRun") (mixin.get? "Lamp") k = some e →
        e = concreteRun "IRun") ∧
      mixin.resolve (.ofUniverse mixin) (runSlot "IRun") .virtual = .empty := by
  have hget : mixin.get? "Lamp" = some ⟨"Lamp", .classType, none, ["IRun"], []⟩ := by
    decide +kernel
  refine ⟨by decide +kernel, rfl, rfl, by decide +kernel, by decide +kernel, fun k e he => ?_,
    by decide +kernel⟩
  rw [hget] at he
  cases k with
  | zero => cases he
  | succ k =>
      rw [declaredAt?_succ] at he
      exact absurd (he.symm.trans (mixin.declaredAt?_none _ k)) (by simp)

end Universe

end MethodFlow
