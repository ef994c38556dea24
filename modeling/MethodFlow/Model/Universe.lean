import MethodFlow.Body.Basic
import MethodFlow.Data.SortedMap

/-!
# Types, methods and the universe that holds them
-/

namespace MethodFlow

/-- The modifiers of a method. -/
structure Modifiers where
  isStatic : Bool
  isFinal : Bool
  isVirtual : Bool
  isAbstract : Bool
  deriving DecidableEq, Repr, Inhabited

/-- The modifiers as a bit mask. -/
def Modifiers.bits (m : Modifiers) : Nat :=
  (if m.isStatic then 0x10 else 0) + (if m.isFinal then 0x20 else 0)
    + (if m.isVirtual then 0x40 else 0) + (if m.isAbstract then 0x400 else 0)

/-- A declared method. -/
structure MethodDef where
  reference : MethodRef
  modifiers : Modifiers
  body : Option Body
  deriving DecidableEq, Repr, Inhabited

namespace MethodDef

def isAbstract (m : MethodDef) : Bool := m.modifiers.isAbstract

/-- Whether calls of the method may be dispatched to an override. -/
def isVirtual (m : MethodDef) : Bool := m.modifiers.isVirtual && !m.modifiers.isStatic

end MethodDef

/-- What kind of type a type is. -/
inductive TypeKind where
  | classType
  | interfaceType
  | valueType
  deriving DecidableEq, Repr, Inhabited

/-- A declared type. -/
structure TypeDef where
  name : TypeName
  kind : TypeKind
  base : Option TypeName
  interfaces : List TypeName
  methods : List MethodDef
  deriving DecidableEq, Repr, Inhabited

namespace TypeDef

/-- The first declared method in the slot of a reference. -/
def findMethod? (t : TypeDef) (m : MethodRef) : Option MethodDef :=
  t.methods.find? fun d => d.reference.sameSlot m

def isInterface (t : TypeDef) : Bool := t.kind == .interfaceType

end TypeDef

/-- All known types by name. -/
structure Universe where
  types : SortedMap TypeName TypeDef

namespace Universe

/-- The universe without types. -/
def empty : Universe := ⟨.empty⟩

/-- Adds a type, in place of one of the same name. -/
def add (u : Universe) (t : TypeDef) : Universe := ⟨u.types.insert t.name t⟩

/-- The type of a name. -/
def get? (u : Universe) (name : TypeName) : Option TypeDef := u.types.get? name

/-- The declaration that a reference names: declared by that type in that slot. -/
def method? (u : Universe) (m : MethodRef) : Option MethodDef :=
  (u.get? m.declaringType).bind fun t => t.findMethod? m

/-- The number of types. -/
def size (u : Universe) : Nat := u.types.size

def isEmpty (u : Universe) : Bool := u.types.isEmpty

/-- The types in the order of their names. -/
def toList (u : Universe) : List TypeDef := u.types.values

/-- The universe of a list of types; of two types of one name the later one counts. -/
def ofList (l : List TypeDef) : Universe := l.foldl add empty

end Universe

end MethodFlow
