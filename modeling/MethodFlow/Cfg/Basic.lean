import MethodFlow.Body.Basic
import MethodFlow.Graph.Loops
import MethodFlow.Graph.Order

/-!
# Control flow graphs

Node 0 is the entry, node 1 the exit, and every other node is a block: a run of instructions that
control enters at the first one only.
-/

namespace MethodFlow

/-- A node of a control flow graph. -/
inductive CfgNode where
  | entry
  | exit
  | block (code : List Instruction)
  deriving DecidableEq, Repr, Inhabited

namespace CfgNode

/-- The instructions of the node. -/
def code : CfgNode → List Instruction
  | .block code => code
  | _ => []

def isBlock : CfgNode → Bool
  | .block _ => true
  | _ => false

/-- The name of the kind of node. -/
def kindName : CfgNode → String
  | .entry => "Entry"
  | .exit => "Exit"
  | .block _ => "BasicBlock"

/-- The offset of the first instruction. -/
def start? (n : CfgNode) : Option Offset := n.code.head?.map Instruction.offset

/-- The last instruction. -/
def last? (n : CfgNode) : Option Instruction := n.code.getLast?

/-- The label of the first instruction, or the kind of node when it has none. -/
def label (n : CfgNode) : String :=
  match n.start? with
  | some o => o.label
  | none => n.kindName

end CfgNode

/-- Why control may pass along an edge. -/
inductive EdgeKind where
  | entry
  | fallThrough
  | unconditional
  /-- The branch is taken. -/
  | conditional
  | switch (case : Nat)
  | handler (exceptionType : Option TypeName)
  | leave
  | endFinally
  | return
  | throw
  deriving DecidableEq, Repr, Inhabited

namespace EdgeKind

def isConditional : EdgeKind → Bool
  | .conditional => true
  | _ => false

/-- Whether the edge belongs to the flow around exceptions. -/
def isExceptional : EdgeKind → Bool
  | .handler _ => true
  | .leave => true
  | .endFinally => true
  | .throw => true
  | _ => false

def isSwitch : EdgeKind → Bool
  | .switch _ => true
  | _ => false

end EdgeKind

/-- The control flow graph of a method, whose name may be unknown. -/
structure Cfg where
  method : Option MethodRef
  graph : Digraph CfgNode EdgeKind

namespace Cfg

/-- The number of the entry node. -/
def entry : NodeId := 0

/-- The number of the exit node. -/
def exit : NodeId := 1

/-- The shape of the graph. -/
def view (c : Cfg) : View := c.graph.view

/-- The number of nodes. -/
def size (c : Cfg) : Nat := c.graph.size

/-- The number of blocks. -/
def blockCount (c : Cfg) : Nat := c.size - 2

/-- The node of a number. -/
def node? (c : Cfg) (n : NodeId) : Option CfgNode := c.graph.data? n

/-- The instructions of a node. -/
def codeOf (c : Cfg) (n : NodeId) : List Instruction := ((c.node? n).map CfgNode.code).getD []

/-- All instructions, block by block. -/
def code (c : Cfg) : List Instruction := (List.range c.size).flatMap c.codeOf

/-- The block that contains the instruction at an offset. -/
def nodeAt? (c : Cfg) (offset : Offset) : Option NodeId :=
  (List.range c.size).find? fun n => (c.codeOf n).any fun i => i.offset == offset

/-- The dominators from the entry. -/
def dominators (c : Cfg) : Dominators := .compute c.view entry

/-- The dominators of the reversed graph from the exit. -/
def postDominators (c : Cfg) : Dominators := .compute c.view.reverse exit

/-- The natural loops. -/
def loopForest (c : Cfg) : LoopForest := c.view.loopForest c.dominators

/-- The nodes in an order that follows the edges where no cycle prevents it. -/
def forwardOrder (c : Cfg) : List NodeId := c.view.topologicalOrder

/-- The nodes in an order that follows the reversed edges where no cycle prevents it. -/
def backwardOrder (c : Cfg) : List NodeId := c.view.reverse.topologicalOrder

/-- The position of a node in the forward order. -/
def forwardIndex? (c : Cfg) (n : NodeId) : Option Nat := c.forwardOrder.idxOf? n

/-- The position of a node in the backward order. -/
def backwardIndex? (c : Cfg) (n : NodeId) : Option Nat := c.backwardOrder.idxOf? n

/-- What the construction of the graph says about itself. -/
def event (c : Cfg) : LogEvent :=
  ⟨.debug, s!"built CFG for {methodLabel c.method}: {c.blockCount} blocks, "
    ++ s!"{c.graph.edgeCount} edges"⟩

end Cfg

end MethodFlow
