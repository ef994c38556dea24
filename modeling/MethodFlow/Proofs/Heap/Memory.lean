import Mathlib.Logic.Function.Basic
import MethodFlow.Body.Instruction
import MethodFlow.Proofs.Cfg.Executions

/-!
# Objects in memory

What the facts of the points-to analysis mean is measured against executions
on a memory of objects.  Of a value it only matters which object it refers to,
if any; null and values that are no references are alike.  Every object
remembers where it comes from: it has been there before the method began, or
an instruction has made it.

Following null ends an execution, so a load or a store finds an object.  Calls
and static fields reach beyond the method and may do anything.

## Main results

* `Memory.Closed.acts`: no reference ever leads to an address that is not in
  use.
* `Memory.outside_of_acts`: only the instructions of the method make objects.
-/

namespace MethodFlow

/-! ## Effects -/

/-- What an operation does to references. -/
inductive HeapEffect where
  /-- A new object of a type. -/
  | create (dest : Variable) (type : TypeName)
  /-- Null. -/
  | null (dest : Variable)
  | copy (dest source : Variable)
  | load (dest base : Variable) (field : FieldRef)
  | store (base : Variable) (field : FieldRef) (value : Variable)
  /-- Code or fields from outside the method, and perhaps a reference from
  there. -/
  | outside (dest : Option Variable)
  /-- A value that is no reference. -/
  | clear (dest : Variable)
  | none
  deriving DecidableEq

/-- The effect of an operation on references. -/
def Operation.heapEffect : Operation → HeapEffect
  | .createObject dest type _ => .create dest type
  | .createArray dest elementType => .create dest (elementType ++ "[]")
  | .loadNull dest => .null dest
  | .copy dest source => .copy dest source
  | .loadField dest object field => .load dest object field
  | .loadElement dest array => .load dest array FieldRef.elements
  | .storeField object field value => .store object field value
  | .storeElement array value => .store array FieldRef.elements value
  | .loadStaticField dest _ => .outside (some dest)
  | .call result _ _ _ => .outside result
  | op =>
    match op.defined with
    | some dest => .clear dest
    | .none => .none

/-- Whether an operation stays within the method: it neither calls another
one nor reads a static field. -/
def Operation.staysInside : Operation → Bool
  | .call _ _ _ _ => false
  | .loadStaticField _ _ => false
  | _ => true

theorem Operation.heapEffect_ne_outside {op : Operation} (h : op.staysInside = true)
    (dest : Option Variable) : op.heapEffect ≠ .outside dest := by
  cases op with
  | call result method arguments dispatch => cases h
  | loadStaticField dest field => cases h
  | basic result => cases result <;> exact HeapEffect.noConfusion
  | _ => exact HeapEffect.noConfusion

/-! ## Memory -/

/-- Where an object lies in memory. -/
abbrev Address := Nat

/-- Where an object comes from. -/
inductive Origin where
  /-- It has been there before the method began. -/
  | outside
  /-- The instruction at the offset has made it. -/
  | made (offset : Offset)
  deriving DecidableEq, Repr

/-- The variables of the method and the objects. -/
structure Memory where
  /-- The object that a variable refers to, if any. -/
  values : Variable → Option Address
  /-- The origin of the object at an address, if the address is in use. -/
  origins : Address → Option Origin
  /-- The object that a field of an object refers to, if any. -/
  fields : Address → FieldRef → Option Address

namespace Memory

variable {h h' : Memory} {x dest : Variable} {a b : Address} {f : FieldRef} {o : Offset}
  {i : Instruction}

/-- Nothing is in use. -/
def empty : Memory := ⟨fun _ => none, fun _ => none, fun _ _ => none⟩

/-- Writes a variable. -/
def assign (h : Memory) (dest : Variable) (value : Option Address) : Memory :=
  { h with values := Function.update h.values dest value }

/-- Makes an object at an address. -/
def allocate (h : Memory) (dest : Variable) (a : Address) (o : Offset) : Memory :=
  ⟨Function.update h.values dest (some a), Function.update h.origins a (some (.made o)),
    Function.update h.fields a fun _ => none⟩

/-- Writes a field. -/
def store (h : Memory) (a : Address) (f : FieldRef) (value : Option Address) : Memory :=
  { h with fields := Function.update h.fields a (Function.update (h.fields a) f value) }

/-- What an instruction may do to the memory. -/
def Acts (i : Instruction) (h h' : Memory) : Prop :=
  match i.op.heapEffect with
  | .create dest _ => ∃ a, h.origins a = none ∧ h' = h.allocate dest a i.offset
  | .null dest => h' = h.assign dest none
  | .copy dest source => h' = h.assign dest (h.values source)
  | .load dest base f => ∃ a, h.values base = some a ∧ h' = h.assign dest (h.fields a f)
  | .store base f value => ∃ a, h.values base = some a ∧ h' = h.store a f (h.values value)
  | .outside _ => True
  | .clear dest => h' = h.assign dest none
  | .none => h' = h

/-- References lead to addresses that are in use. -/
structure Closed (h : Memory) : Prop where
  values : ∀ x a, h.values x = some a → h.origins a ≠ none
  fields : ∀ a f b, h.origins a ≠ none → h.fields a f = some b → h.origins b ≠ none

/-- A memory in which a method may begin: all objects come from outside, and
only parameters refer to them. -/
structure Initial (parameters : List Variable) (h : Memory) : Prop where
  closed : h.Closed
  outside : ∀ a origin, h.origins a = some origin → origin = .outside
  parameters : ∀ x a, h.values x = some a → x ∈ parameters

theorem initial_empty : Initial [] empty where
  closed := ⟨fun _ _ h => (nomatch h), fun _ _ _ _ h => (nomatch h)⟩
  outside _ _ h := nomatch h
  parameters _ _ h := nomatch h

/-! ## Single changes -/

theorem values_assign {value : Option Address} (hx : (h.assign dest value).values x = some a) :
    (x = dest ∧ value = some a) ∨ (x ≠ dest ∧ h.values x = some a) := by
  by_cases hdest : x = dest
  · rw [hdest] at hx
    exact .inl ⟨hdest, by simpa [assign] using hx⟩
  · exact .inr ⟨hdest, by simpa [assign, hdest] using hx⟩

theorem values_allocate (hx : (h.allocate dest a o).values x = some b) :
    (x = dest ∧ b = a) ∨ (x ≠ dest ∧ h.values x = some b) := by
  by_cases hdest : x = dest
  · rw [hdest] at hx
    simp only [allocate, Function.update_self, Option.some.injEq] at hx
    exact .inl ⟨hdest, hx.symm⟩
  · exact .inr ⟨hdest, by simpa [allocate, hdest] using hx⟩

theorem origins_allocate_self : (h.allocate dest a o).origins a = some (.made o) :=
  Function.update_self ..

theorem origins_allocate_of_ne (hb : b ≠ a) : (h.allocate dest a o).origins b = h.origins b :=
  Function.update_of_ne hb ..

/-- A new object has no references in its fields. -/
theorem fields_allocate {c : Address} (hb : (h.allocate dest a o).fields b f = some c) :
    b ≠ a ∧ h.fields b f = some c := by
  by_cases hba : b = a
  · rw [hba] at hb
    simp [allocate] at hb
  · exact ⟨hba, by simpa [allocate, hba] using hb⟩

theorem fields_store {value : Option Address} {f' : FieldRef} {c : Address}
    (hb : (h.store a f value).fields b f' = some c) :
    (b = a ∧ f' = f ∧ value = some c) ∨ h.fields b f' = some c := by
  by_cases hba : b = a
  · subst hba
    by_cases hf : f' = f
    · subst hf
      exact .inl ⟨rfl, rfl, by simpa [store] using hb⟩
    · exact .inr (by simpa [store, hf] using hb)
  · exact .inr (by simpa [store, hba] using hb)

/-! ## Steps -/

theorem Closed.assign (hh : h.Closed) {value : Option Address}
    (hvalue : ∀ a, value = some a → h.origins a ≠ none) : (h.assign dest value).Closed where
  values x a hx := by
    rcases values_assign hx with ⟨-, ha⟩ | ⟨-, ha⟩
    · exact hvalue a ha
    · exact hh.values x a ha
  fields := hh.fields

theorem Closed.allocate (hh : h.Closed) : (h.allocate dest a o).Closed := by
  have hkept : ∀ b, h.origins b ≠ none → (h.allocate dest a o).origins b ≠ none := by
    intro b hb
    by_cases hba : b = a
    · rw [hba, origins_allocate_self]
      exact Option.some_ne_none _
    · rw [origins_allocate_of_ne hba]
      exact hb
  refine ⟨fun x b hx => ?_, fun b f c hb hc => ?_⟩
  · rcases values_allocate hx with ⟨-, rfl⟩ | ⟨-, hx⟩
    · rw [origins_allocate_self]
      exact Option.some_ne_none _
    · exact hkept b (hh.values x b hx)
  · obtain ⟨hba, hc⟩ := fields_allocate hc
    rw [origins_allocate_of_ne hba] at hb
    exact hkept c (hh.fields b f c hb hc)

theorem Closed.store (hh : h.Closed) {value : Option Address}
    (hvalue : ∀ c, value = some c → h.origins c ≠ none) : (h.store a f value).Closed where
  values := hh.values
  fields b f' c hb hc := by
    rcases fields_store hc with ⟨-, -, hc⟩ | hc
    · exact hvalue c hc
    · exact hh.fields b f' c hb hc

/-- No instruction that stays within the method leaves a dangling
reference. -/
theorem Closed.acts (hh : h.Closed) (hinside : i.op.staysInside = true) (hacts : Acts i h h') :
    h'.Closed := by
  unfold Acts at hacts
  split at hacts
  · obtain ⟨a, -, rfl⟩ := hacts
    exact hh.allocate
  · rw [hacts]
    exact hh.assign fun _ h => nomatch h
  · rw [hacts]
    exact hh.assign (hh.values _)
  · obtain ⟨a, ha, rfl⟩ := hacts
    exact hh.assign fun b hb => hh.fields a _ b (hh.values _ a ha) hb
  · obtain ⟨a, -, rfl⟩ := hacts
    exact hh.store (hh.values _)
  · next heffect => exact absurd heffect (Operation.heapEffect_ne_outside hinside _)
  · rw [hacts]
    exact hh.assign fun _ h => nomatch h
  · rw [hacts]
    exact hh

/-- Objects from outside have been there before. -/
theorem outside_of_acts (hinside : i.op.staysInside = true) (hacts : Acts i h h')
    (ha : h'.origins a = some .outside) : h.origins a = some .outside := by
  unfold Acts at hacts
  split at hacts
  · obtain ⟨b, -, rfl⟩ := hacts
    by_cases hab : a = b
    · rw [hab, origins_allocate_self] at ha
      cases ha
    · rwa [origins_allocate_of_ne hab] at ha
  · rw [hacts] at ha
    exact ha
  · rw [hacts] at ha
    exact ha
  · obtain ⟨b, -, rfl⟩ := hacts
    exact ha
  · obtain ⟨b, -, rfl⟩ := hacts
    exact ha
  · next heffect => exact absurd heffect (Operation.heapEffect_ne_outside hinside _)
  · rw [hacts] at ha
    exact ha
  · rw [hacts] at ha
    exact ha

end Memory

end MethodFlow
