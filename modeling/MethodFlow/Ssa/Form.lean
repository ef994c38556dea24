import MethodFlow.Body.Instruction
import MethodFlow.Data.SortedMap

/-!
# Static single assignment form

In single assignment form every definition of a variable makes a new version of it.  Where
control comes from several places with different versions, a phi node at the beginning of the
block chooses by predecessor.  Versions are numbered through; version 0 of a variable is its
value at the entry.
-/

namespace MethodFlow

/-- The number of a version in the table of all versions. -/
abbrev SsaId := Nat

namespace SsaId

/-- The short name of a version. -/
def label (id : SsaId) : String := s!"v{id}"

/-- The name of a version that also says what it names. -/
def describe (id : SsaId) : String := s!"SsaVarId({id})"

end SsaId

/-- Where a version is defined. -/
inductive DefSite where
  /-- On entry to the method. -/
  | entry
  /-- By a phi node of a block. -/
  | phi (block : NodeId)
  /-- By the instruction of a block at an index. -/
  | instruction (block : NodeId) (index : Nat)
  deriving DecidableEq, Repr

namespace DefSite

def isPhi : DefSite → Bool
  | .phi _ => true
  | _ => false

/-- The block of the definition. -/
def block : DefSite → NodeId
  | .entry => 0
  | .phi block => block
  | .instruction block _ => block

end DefSite

/-- Where a version is read. -/
inductive UseSite where
  /-- By the instruction of a block at an index. -/
  | instruction (block : NodeId) (index : Nat)
  /-- By an operand of a phi node, counted within its block. -/
  | phi (block : NodeId) (index : Nat)
  deriving DecidableEq, Repr

/-- A version of a variable. -/
structure SsaVar where
  id : SsaId
  origin : Variable
  version : Nat
  site : DefSite
  /-- Where the version is read, in the order of renaming. -/
  uses : List UseSite
  deriving DecidableEq, Repr

namespace SsaVar

/-- The name of the variable with the number of the version. -/
def label (x : SsaVar) : String := s!"{x.origin.name}_{x.version}"

/-- Whether nothing reads the version. -/
def isDead (x : SsaVar) : Bool := x.uses.isEmpty

/-- Lists another place that reads the version. -/
def addUse (x : SsaVar) (site : UseSite) : SsaVar := { x with uses := x.uses ++ [site] }

end SsaVar

/-- The version that a phi node takes when control comes from a predecessor. -/
structure PhiOperand where
  value : SsaId
  predecessor : NodeId
  deriving DecidableEq, Repr

/-- The written form of an operand. -/
def PhiOperand.render (o : PhiOperand) : String := s!"{o.value.label} from {o.predecessor.label}"

/-- A phi node. -/
structure Phi where
  result : SsaId
  origin : Variable
  operands : List PhiOperand
  deriving DecidableEq, Repr

namespace Phi

/-- Adds an operand. -/
def addOperand (p : Phi) (o : PhiOperand) : Phi := { p with operands := p.operands ++ [o] }

/-- The version taken when control comes from a predecessor. -/
def operandFrom? (p : Phi) (predecessor : NodeId) : Option SsaId :=
  (p.operands.find? fun o => o.predecessor == predecessor).map PhiOperand.value

/-- Whether there are operands and all have the same value. -/
def isTrivial (p : Phi) : Bool :=
  match p.operands with
  | [] => false
  | first :: rest => rest.all fun o => o.value == first.value

/-- The written form of a phi node. -/
def render (p : Phi) : String :=
  p.result.label ++ " = phi(" ++ ", ".intercalate (p.operands.map PhiOperand.render) ++ ")"

end Phi

/-- An instruction with the versions that it writes and reads. -/
structure SsaInstruction where
  instruction : Instruction
  defined : Option SsaId
  uses : List SsaId
  deriving DecidableEq, Repr

/-- A block in single assignment form. -/
structure SsaBlock where
  id : NodeId
  phis : List Phi
  code : List SsaInstruction
  deriving DecidableEq, Repr, Inhabited

/-- The phi node of a variable. -/
def SsaBlock.phiFor? (b : SsaBlock) (x : Variable) : Option Phi :=
  b.phis.find? fun p => p.origin == x

/-- A method in single assignment form. -/
structure SsaForm where
  method : Option MethodRef
  /-- The blocks by node. -/
  blocks : List SsaBlock
  /-- The versions by number. -/
  table : List SsaVar
  deriving DecidableEq, Repr

namespace SsaForm

/-- The versions of a variable. -/
def versions (s : SsaForm) (x : Variable) : List SsaVar := s.table.filter fun v => v.origin == x

/-- Version 0 of a variable. -/
def initial? (s : SsaForm) (x : Variable) : Option SsaVar :=
  (s.versions x).find? fun v => v.version == 0

/-- All phi nodes with their blocks. -/
def phis (s : SsaForm) : List (NodeId × Phi) :=
  s.blocks.flatMap fun b => b.phis.map fun p => (b.id, p)

/-- The versions that nothing reads. -/
def dead (s : SsaForm) : List SsaVar := s.table.filter SsaVar.isDead

end SsaForm

end MethodFlow
