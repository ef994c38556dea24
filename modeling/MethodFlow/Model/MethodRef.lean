import MethodFlow.Data.Ordered

/-!
# Method references

A method is named by its declaring type, its own name and its signature, written
`Type::name(signature)`.  Reading cuts the text at the first opening parenthesis and the part
before it at the last `::`.
-/

namespace MethodFlow

/-- The name of a type. -/
abbrev TypeName := String

/-- The name of a method. -/
structure MethodRef where
  declaringType : TypeName
  name : String
  signature : String
  deriving DecidableEq, Repr, Inhabited

namespace MethodRef

/-- References are ordered by declaring type, then name, then signature. -/
instance : Ordered MethodRef :=
  Ordered.ofKey (fun m => (m.declaringType, m.name, m.signature)) (by
    intro a b h
    cases a; cases b
    simp only [Prod.mk.injEq] at h
    simp [h])

/-- The method of the same name and signature on another type. -/
def onType (m : MethodRef) (type : TypeName) : MethodRef := { m with declaringType := type }

/-- Whether two references name the same slot: name and signature agree, the type may differ. -/
def sameSlot (m n : MethodRef) : Bool := m.name == n.name && m.signature == n.signature

/-- The written form; a method without a declaring type is written without `::`. -/
def render (m : MethodRef) : String :=
  if m.declaringType = "" then m.name ++ m.signature
  else m.declaringType ++ "::" ++ m.name ++ m.signature

/-- The written form with its kind of name around it. -/
def describe (m : MethodRef) : String := s!"MethodRef({m.render})"

/-- Cuts a text at its last `::`, if it has one. -/
def cutLastSeparator : List Char → Option (List Char × List Char)
  | [] => none
  | c :: rest =>
    match cutLastSeparator rest with
    | some (front, back) => some (c :: front, back)
    | none =>
      match c, rest with
      | ':', ':' :: back => some ([], back)
      | _, _ => none

/-- Reads a reference: the signature starts at the first `(`, and the last `::` before it
divides the declaring type from the name. -/
def parse (text : String) : MethodRef :=
  let head := text.toList.takeWhile (· ≠ '(')
  let signature := text.toList.dropWhile (· ≠ '(')
  match cutLastSeparator head with
  | some (type, name) => ⟨String.ofList type, String.ofList name, String.ofList signature⟩
  | none => ⟨"", String.ofList head, String.ofList signature⟩

end MethodRef

/-- How a message names a method that may be unknown. -/
def methodLabel : Option MethodRef → String
  | some m => m.render
  | none => "<anonymous>"

end MethodFlow
