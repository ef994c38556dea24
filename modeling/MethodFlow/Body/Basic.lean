import MethodFlow.Body.Instruction
import MethodFlow.Body.Region

/-!
# Method bodies
-/

namespace MethodFlow

/-- The body of a method: its variables, its instructions and the regions that protect them. -/
structure Body where
  method : MethodRef
  parameters : List Variable
  locals : List Variable
  code : List Instruction
  regions : List Region
  deriving DecidableEq, Repr, Inhabited

/-- Halves the range of `size` positions from `base` on until one is left, keeping the upper half
unless it begins beyond the key. -/
def bisect (offsets : List Offset) (key : Offset) (base size : Nat) : Nat :=
  if size ≤ 1 then base
  else if key < offsets.getD (base + size / 2) 0 then bisect offsets key base (size - size / 2)
  else bisect offsets key (base + size / 2) (size - size / 2)
termination_by size

/-- The instruction at an offset, found by bisection in code with ascending offsets. -/
def instructionAt? (code : List Instruction) (offset : Offset) : Option Instruction :=
  match code[bisect (code.map Instruction.offset) offset 0 code.length]? with
  | some i => if i.offset = offset then some i else none
  | none => none

namespace Body

/-- Whether there are no instructions. -/
def isEmpty (b : Body) : Bool := b.code.isEmpty

/-- The instruction at an offset. -/
def instructionAt? (b : Body) (offset : Offset) : Option Instruction :=
  MethodFlow.instructionAt? b.code offset

/-- The first offset behind the last instruction, cut back to the greatest offset. -/
def endOffset (b : Body) : Offset :=
  match b.code.getLast? with
  | some last => min (last.offset + 1) Offset.max
  | none => 0

end Body

end MethodFlow
