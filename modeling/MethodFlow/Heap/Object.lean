import MethodFlow.Body.Variable
import MethodFlow.Error

/-!
# Abstract objects

A points-to graph speaks of abstract objects: one for null, one for each creation site, and one
for each place where an object of unknown origin comes in.  Ids come from an allocator, and ids
of one allocator form a family: only graphs of one family may be compared by id.
-/

namespace MethodFlow

/-- The id of an abstract object. -/
abbrev HeapId := Nat

namespace HeapId

/-- The id of null. -/
def null : HeapId := 0

/-- The greatest id. -/
def max : HeapId := 4294967295

/-- The short name of an id. -/
def label (id : HeapId) : String := s!"#{id}"

/-- The name of an id that also says what it names. -/
def describe (id : HeapId) : String := s!"PtgNodeId({id})"

end HeapId

/-- What an abstract object stands for. -/
inductive ObjectKind where
  /-- The null reference. -/
  | null
  /-- The objects that one instruction creates. -/
  | object
  /-- Objects of unknown origin. -/
  | unknown
  deriving DecidableEq, Repr, Inhabited

/-- The name of a kind. -/
def ObjectKind.name : ObjectKind → String
  | .null => "Null"
  | .object => "Object"
  | .unknown => "Unknown"

/-- An abstract object. -/
structure HeapObject where
  id : HeapId
  kind : ObjectKind
  type : Option TypeName
  /-- Where the object is created or comes in. -/
  offset : Option Offset
  deriving DecidableEq, Repr, Inhabited

/-- The object that stands for null. -/
def HeapObject.null : HeapObject := ⟨HeapId.null, .null, none, none⟩

/-- Hands out ids of one family. -/
structure Allocator where
  family : Nat
  next : HeapId
  deriving DecidableEq, Repr

namespace Allocator

/-- An allocator that has handed out nothing. -/
def new (family : Nat) : Allocator := ⟨family, 1⟩

/-- Hands out the next id. -/
def allocate (a : Allocator) : Except Error (HeapId × Allocator) :=
  if a.next < HeapId.max then .ok (a.next, { a with next := a.next + 1 })
  else .error .heapIdsExhausted

/-- How many ids have been handed out. -/
def allocated (a : Allocator) : Nat := a.next - 1

end Allocator

end MethodFlow
