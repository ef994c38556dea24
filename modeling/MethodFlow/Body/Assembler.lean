import MethodFlow.Body.Basic
import MethodFlow.Data.SortedMap
import MethodFlow.Error

/-!
# Assembling a body with named positions

An `Assembler` collects instructions in order.  Branches, switches and regions name positions by
labels, which may be bound before or after their use; `finish` replaces them by offsets.
Instruction `i` gets offset `i`.
-/

namespace MethodFlow

/-- An instruction whose branch targets may still be labels. -/
inductive DraftOp where
  | plain (op : Operation)
  | branch (kind : BranchKind) (label : String)
  | switch (labels : List String)
  deriving DecidableEq, Repr

/-- A handler whose filter may still be a label. -/
inductive DraftHandler where
  | plain (handler : Handler)
  | filterAt (label : String)
  deriving DecidableEq, Repr

/-- A region bounded by labels. -/
structure DraftRegion where
  tryStart : String
  tryEnd : String
  handlerStart : String
  handlerEnd : String
  handler : DraftHandler
  deriving DecidableEq, Repr

/-- A body under construction. -/
structure Assembler where
  method : MethodRef
  parameters : List Variable
  locals : List Variable
  ops : List DraftOp
  labels : SortedMap String Offset
  regions : List DraftRegion

namespace Assembler

/-- A body without anything in it. -/
def new (method : MethodRef) : Assembler := ⟨method, [], [], [], .empty, []⟩

/-- The offset of instruction `index`, cut back to the greatest offset. -/
def offsetOf (index : Nat) : Offset := min index Offset.max

/-- The offset that the next instruction gets. -/
def nextOffset (a : Assembler) : Offset := offsetOf a.ops.length

def parameter (a : Assembler) (x : Variable) : Assembler :=
  { a with parameters := a.parameters ++ [x] }

def «local» (a : Assembler) (x : Variable) : Assembler := { a with locals := a.locals ++ [x] }

/-- Binds a label to the position of the next instruction.  A label is bound once. -/
def label (a : Assembler) (name : String) : Except Error Assembler :=
  if a.labels.contains name then .error (.duplicateLabel name)
  else .ok { a with labels := a.labels.insert name a.nextOffset }

/-- Adds an instruction. -/
def push (a : Assembler) (op : DraftOp) : Assembler := { a with ops := a.ops ++ [op] }

/-- Adds an instruction without labels. -/
def emit (a : Assembler) (op : Operation) : Assembler := a.push (.plain op)

/-- Adds the creation of an object by the constructor without parameters. -/
def newObject (a : Assembler) (dest : Variable) (type : TypeName) : Assembler :=
  a.emit (.createObject dest type ⟨type, ".ctor", "()"⟩)

/-- Adds a branch to a label. -/
def branch (a : Assembler) (kind : BranchKind) (label : String) : Assembler :=
  a.push (.branch kind label)

/-- Adds a switch over labels. -/
def switch (a : Assembler) (labels : List String) : Assembler := a.push (.switch labels)

/-- Adds a protected region. -/
def region (a : Assembler) (r : DraftRegion) : Assembler := { a with regions := a.regions ++ [r] }

/-! ## Resolving labels -/

/-- The offset that a label is bound to. -/
def resolve (labels : SortedMap String Offset) (name : String) : Except Error Offset :=
  match labels.get? name with
  | some offset => .ok offset
  | none => .error (.undefinedLabel name)

/-- Replaces the labels of an instruction. -/
def resolveOp (labels : SortedMap String Offset) : DraftOp → Except Error Operation
  | .plain op => .ok op
  | .branch kind label => do return .branch kind (← resolve labels label)
  | .switch names => do return .switch (← names.mapM (resolve labels))

/-- Replaces the label of a handler. -/
def resolveHandler (labels : SortedMap String Offset) : DraftHandler → Except Error Handler
  | .plain handler => .ok handler
  | .filterAt label => do return .filter (← resolve labels label)

/-- Replaces the labels of a region. -/
def resolveRegion (labels : SortedMap String Offset) (r : DraftRegion) : Except Error Region := do
  let handler ← resolveHandler labels r.handler
  return {
    tryStart := ← resolve labels r.tryStart
    tryEnd := ← resolve labels r.tryEnd
    handlerStart := ← resolve labels r.handlerStart
    handlerEnd := ← resolve labels r.handlerEnd
    handler }

/-- The finished body.  Instructions are resolved before regions, each in order, and the first
label that is not bound is reported. -/
def finish (a : Assembler) : Except Error Body := do
  let ops ← a.ops.mapM (resolveOp a.labels)
  let regions ← a.regions.mapM (resolveRegion a.labels)
  return {
    method := a.method
    parameters := a.parameters
    locals := a.locals
    code := ops.mapIdx fun i op => ⟨offsetOf i, op⟩
    regions }

end Assembler

end MethodFlow
