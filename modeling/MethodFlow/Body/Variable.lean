import MethodFlow.Model.MethodRef

/-!
# Variables and fields
-/

namespace MethodFlow

/-- Where a variable comes from. -/
inductive VariableKind where
  | parameter
  | local
  | temporary
  deriving DecidableEq, Repr, Inhabited

/-- The place of a kind in the order of kinds. -/
def VariableKind.rank : VariableKind → Nat
  | .parameter => 0
  | .local => 1
  | .temporary => 2

theorem VariableKind.rank_inj (a b : VariableKind) (h : a.rank = b.rank) : a = b := by
  cases a <;> cases b <;> simp_all [rank]

instance : Ordered VariableKind := Ordered.ofKey VariableKind.rank VariableKind.rank_inj

/-- A variable of a method body.  Variables are the same only if all three parts agree. -/
structure Variable where
  name : String
  type : Option TypeName
  kind : VariableKind
  deriving DecidableEq, Repr, Inhabited

namespace Variable

/-- Variables are ordered by name, then declared type, then kind. -/
instance : Ordered Variable :=
  Ordered.ofKey (fun x => (x.name, x.type, x.kind)) (by
    intro a b h
    cases a; cases b
    simp only [Prod.mk.injEq] at h
    simp [h])

/-- The name with the declared type, if there is one. -/
def describe (x : Variable) : String :=
  match x.type with
  | some type => s!"{x.name}: {type}"
  | none => x.name

end Variable

/-- A field of a type. -/
structure FieldRef where
  declaringType : TypeName
  name : String
  deriving DecidableEq, Repr, Inhabited

namespace FieldRef

/-- Fields are ordered by declaring type, then name. -/
instance : Ordered FieldRef :=
  Ordered.ofKey (fun f => (f.declaringType, f.name)) (by
    intro a b h
    cases a; cases b
    simp only [Prod.mk.injEq] at h
    simp [h])

/-- The field that stands for all elements of an array. -/
def elements : FieldRef := ⟨"", "[]"⟩

/-- The written form; a field without a declaring type is written as its name. -/
def render (f : FieldRef) : String :=
  if f.declaringType = "" then f.name else f.declaringType ++ "::" ++ f.name

end FieldRef

end MethodFlow
