import MethodFlow.Model.MethodRef
import MethodFlow.Text.Label

/-!
# What can go wrong

Every failure of the library is one of the causes below, and `Error.message` gives its wording.
-/

namespace MethodFlow

/-- Why a method body is not well formed.  The method is absent when only its instructions are
known. -/
inductive Malformation where
  /-- The offset of an instruction does not exceed the one before. -/
  | offsetsNotIncreasing (method : Option MethodRef) (offset : Offset)
  /-- A protected region begins or ends where there is no instruction. -/
  | boundMissing (method : Option MethodRef) (bound : Offset)
  /-- A branch goes where there is no instruction. -/
  | targetMissing (method : Option MethodRef) (branch target : Offset)
  /-- A handler begins where no block begins. -/
  | entryMissing (method : Option MethodRef) (entry : Offset)
  /-- Any other fault, in words. -/
  | other (text : String)
  deriving DecidableEq, Repr

/-- The wording of a malformation. -/
def Malformation.message : Malformation → String
  | .offsetsNotIncreasing m o =>
    methodLabel m ++ ": instruction offsets are not strictly increasing at " ++ o.label
  | .boundMissing m o =>
    methodLabel m ++ ": protected region bound " ++ o.label ++ " does not match any instruction"
  | .targetMissing m o t =>
    methodLabel m ++ ": branch at " ++ o.label ++ " targets " ++ t.label
      ++ " which is not an instruction of the method"
  | .entryMissing m o =>
    methodLabel m ++ ": handler entry " ++ o.label ++ " does not start a block"
  | .other text => text

/-- The causes of failure. -/
inductive Error where
  | malformed (fault : Malformation)
  /-- An edge names a node that a graph of `size` nodes does not have. -/
  | nodeMissing (node : NodeId) (size : Nat)
  /-- A method has no call site of that label. -/
  | callSiteMissing (caller : MethodRef) (label : String)
  /-- A failure that an analysis reports in its own words. -/
  | reported (text : String)
  /-- A points-to graph lacks a node. -/
  | heapNodeMissing (id : Nat)
  /-- One id stands for two different nodes. -/
  | heapIdCollision (id : Nat)
  /-- No more ids for points-to nodes. -/
  | heapIdsExhausted
  | infoMissing (key : String)
  | infoTypeMismatch (key : String)
  /-- A dataflow analysis has not settled within its pass limit. -/
  | notConverged (analysis : String) (limit : Nat)
  | methodNotFound (method : MethodRef)
  | duplicateLabel (name : String)
  | undefinedLabel (name : String)
  deriving DecidableEq, Repr

namespace Error

/-- The wording of a failure. -/
def message : Error → String
  | .malformed fault => fault.message
  | .nodeMissing node size =>
    s!"node {node.label} does not exist in graph with {size} nodes"
  | .callSiteMissing caller label => s!"{caller.render} has no call site {label}"
  | .reported text => text
  | .heapNodeMissing id => s!"Points-to node #{id} is not part of the graph"
  | .heapIdCollision id => s!"Points-to node id collision on #{id}"
  | .heapIdsExhausted => "Points-to node ids exhausted"
  | .infoMissing key => s!"Analysis info has no value for key '{key}'"
  | .infoTypeMismatch key => s!"Analysis info value for key '{key}' has a different type"
  | .notConverged analysis limit => s!"{analysis} did not converge within {limit} iterations"
  | .methodNotFound method => s!"Method not found - {method.render}"
  | .duplicateLabel name => s!"Duplicate label - {name}"
  | .undefinedLabel name => s!"Undefined label - {name}"

/-- The full report of a failure; a malformed body also tells where in the checking program it
was noticed. -/
def report (e : Error) (file : String) (line : Nat) : String :=
  match e with
  | .malformed fault => s!"Malformed - {file}:{line}: {fault.message}"
  | e => e.message

end Error

end MethodFlow
