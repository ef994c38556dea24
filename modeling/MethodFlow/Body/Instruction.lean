import MethodFlow.Body.Variable
import MethodFlow.Text.Label
import MethodFlow.Text.Quoted

/-!
# Instructions

An instruction is an operation at an offset.  What the analyses need to know of it is which
variable it defines, which it uses, where it may branch to, and whether control can pass on to
the instruction that follows it.
-/

namespace MethodFlow

/-- How a branch transfers control. -/
inductive BranchKind where
  | unconditional
  | conditional
  /-- Leaves a protected region. -/
  | leave
  deriving DecidableEq, Repr, Inhabited

/-- How the target of a call is found. -/
inductive Dispatch where
  | static
  | virtual
  deriving DecidableEq, Repr, Inhabited

/-- A mark where a protected range or a handler begins. -/
inductive Marker where
  | try
  | catch (type : Option TypeName)
  | fault
  | filter
  | finally
  deriving DecidableEq, Repr, Inhabited

/-- The written form of a mark. -/
def Marker.render : Marker → String
  | .try => "Try"
  | .catch none => "Catch(None)"
  | .catch (some type) => s!"Catch(Some({quoted type}))"
  | .fault => "Fault"
  | .filter => "Filter"
  | .finally => "Finally"

/-- What an instruction does. -/
inductive Operation where
  /-- An operation of which only the result matters. -/
  | basic (dest : Option Variable)
  | nop
  | loadConstant (dest : Variable)
  | loadNull (dest : Variable)
  | copy (dest source : Variable)
  | loadField (dest object : Variable) (field : FieldRef)
  | storeField (object : Variable) (field : FieldRef) (value : Variable)
  | loadStaticField (dest : Variable) (field : FieldRef)
  | storeStaticField (field : FieldRef) (value : Variable)
  | loadElement (dest array : Variable)
  | storeElement (array value : Variable)
  | createObject (dest : Variable) (type : TypeName) (constructor : MethodRef)
  | createArray (dest : Variable) (elementType : TypeName)
  | call (result : Option Variable) (method : MethodRef) (arguments : List Variable)
      (dispatch : Dispatch)
  | branch (kind : BranchKind) (target : Offset)
  | switch (targets : List Offset)
  | return (value : Option Variable)
  | throw (exception : Variable)
  | rethrow
  | endFinally
  | marker (mark : Marker)
  deriving DecidableEq, Repr, Inhabited

namespace Operation

/-- The offsets that the operation may branch to. -/
def targets : Operation → List Offset
  | .branch _ target => [target]
  | .switch targets => targets
  | _ => []

/-- Whether control can pass on to the next instruction. -/
def fallsThrough : Operation → Bool
  | .branch .unconditional _ => false
  | .branch .leave _ => false
  | .return _ => false
  | .throw _ => false
  | .rethrow => false
  | .endFinally => false
  | _ => true

/-- Whether the operation ends a block: it branches, or control does not pass on. -/
def isTerminator : Operation → Bool
  | .branch _ _ => true
  | .switch _ => true
  | op => !op.fallsThrough

/-- The variable that the operation writes. -/
def defined : Operation → Option Variable
  | .basic dest => dest
  | .call result _ _ _ => result
  | .loadConstant dest => some dest
  | .loadNull dest => some dest
  | .copy dest _ => some dest
  | .loadField dest _ _ => some dest
  | .loadStaticField dest _ => some dest
  | .loadElement dest _ => some dest
  | .createObject dest _ _ => some dest
  | .createArray dest _ => some dest
  | _ => none

/-- The variables that the operation reads, in the order of its operands. -/
def used : Operation → List Variable
  | .copy _ source => [source]
  | .loadField _ object _ => [object]
  | .storeField object _ value => [object, value]
  | .storeStaticField _ value => [value]
  | .loadElement _ array => [array]
  | .storeElement array value => [array, value]
  | .call _ _ arguments _ => arguments
  | .return value => value.toList
  | .throw exception => [exception]
  | _ => []

/-- The mnemonic of a branch. -/
def branchName : BranchKind → String
  | .unconditional => "br"
  | .conditional => "brif"
  | .leave => "leave"

/-- The mnemonic of a call. -/
def callName : Dispatch → String
  | .static => "call"
  | .virtual => "callvirt"

/-- The written form of the operation. -/
def render : Operation → String
  | .basic (some dest) => dest.name ++ " = ..."
  | .basic none => "..."
  | .nop => "nop"
  | .loadConstant dest => dest.name ++ " = <const>"
  | .loadNull dest => dest.name ++ " = null"
  | .copy dest source => dest.name ++ " = " ++ source.name
  | .loadField dest object field => dest.name ++ " = " ++ object.name ++ "." ++ field.name
  | .storeField object field value => object.name ++ "." ++ field.name ++ " = " ++ value.name
  | .loadStaticField dest field => dest.name ++ " = " ++ field.render
  | .storeStaticField field value => field.render ++ " = " ++ value.name
  | .loadElement dest array => dest.name ++ " = " ++ array.name ++ "[]"
  | .storeElement array value => array.name ++ "[] = " ++ value.name
  | .createObject dest type _ => dest.name ++ " = new " ++ type
  | .createArray dest elementType => dest.name ++ " = new " ++ elementType ++ "[]"
  | .call result method arguments dispatch =>
    (match result with
      | some result => result.name ++ " = "
      | none => "")
      ++ callName dispatch ++ " " ++ method.render
      ++ " [" ++ ", ".intercalate (arguments.map Variable.name) ++ "]"
  | .branch kind target => branchName kind ++ " " ++ target.label
  | .switch targets => "switch (" ++ ", ".intercalate (targets.map Offset.label) ++ ")"
  | .return (some value) => "ret " ++ value.name
  | .return none => "ret"
  | .throw exception => "throw " ++ exception.name
  | .rethrow => "rethrow"
  | .endFinally => "endfinally"
  | .marker mark => "." ++ mark.render

end Operation

/-- An operation at its place in a method body. -/
structure Instruction where
  offset : Offset
  op : Operation
  deriving DecidableEq, Repr, Inhabited

namespace Instruction

/-- The written form: the label of the offset and the operation. -/
def render (i : Instruction) : String := i.offset.label ++ ": " ++ i.op.render

/-- Whether the instruction is a mark. -/
def isMarker (i : Instruction) : Bool :=
  match i.op with
  | .marker _ => true
  | _ => false

end Instruction

end MethodFlow
