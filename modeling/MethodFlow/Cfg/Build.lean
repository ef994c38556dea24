import MethodFlow.Cfg.Basic
import MethodFlow.Config

/-!
# From instructions to a control flow graph

A block begins at the first instruction, behind a terminator, at a mark, at a bound of a
protected region and at every branch target.  Blocks are numbered in the order in which reading
the code meets their beginnings: at each instruction first the instruction itself, then its
targets.

The code is checked first: offsets must ascend, region bounds and branch targets must be
instructions (a range may end behind the last one), and handlers must begin blocks.  Building
then cannot fail.  Edges are listed in the order in which they are added; of two edges between
the same nodes the first one stays.
-/

namespace MethodFlow

namespace Cfg

/-! ## Checking the code -/

/-- The first offset that does not exceed the one before it. -/
def disorder? : List Instruction → Option Offset
  | a :: b :: rest => if a.offset < b.offset then disorder? (b :: rest) else some b.offset
  | _ => none

/-- Whether there is an instruction at an offset. -/
def hasOffset (code : List Instruction) (o : Offset) : Bool := code.any fun i => i.offset == o

/-- Whether an offset lies behind the last instruction. -/
def behindLast (code : List Instruction) (o : Offset) : Bool :=
  match code.getLast? with
  | some last => last.offset < o
  | none => false

/-- Whether a bound of a region is acceptable: an instruction, or the end of a range behind the
last instruction. -/
def boundOk (code : List Instruction) (r : Region) (bound : Offset) : Bool :=
  hasOffset code bound ||
    ((bound == r.tryEnd || bound == r.handlerEnd) && behindLast code bound)

/-- The first region bound that is not acceptable. -/
def badBound? (code : List Instruction) (regions : List Region) : Option Offset :=
  regions.findSome? fun r => r.boundaries.find? fun b => !boundOk code r b

/-- The first branch to an offset without an instruction, with that offset. -/
def badTarget? (code : List Instruction) : Option (Offset × Offset) :=
  code.findSome? fun i =>
    (i.op.targets.find? fun t => !hasOffset code t).map fun t => (i.offset, t)

/-! ## Blocks -/

/-- The position of the instruction at an offset. -/
def indexOf? (code : List Instruction) (o : Offset) : Option Nat :=
  code.findIdx? fun i => i.offset == o

/-- Whether the instruction at a position begins a block even if nothing branches to it. -/
def startsBlock (code : List Instruction) (regions : List Region) (index : Nat)
    (i : Instruction) : Bool :=
  index == 0 || ((code[index - 1]?).any fun p => p.op.isTerminator) || i.isMarker ||
    regions.any fun r => r.boundaries.contains i.offset

/-- The positions where blocks begin, in the order in which reading the code meets them. -/
def leaders (code : List Instruction) (regions : List Region) : List Nat :=
  ((code.zipIdx.flatMap fun (i, index) =>
    (if startsBlock code regions index i then [index] else [])
      ++ i.op.targets.filterMap (indexOf? code))).eraseDups

/-- The blocks of a piece of code. -/
structure Layout where
  code : List Instruction
  regions : List Region
  /-- The positions where blocks begin, in the order of the blocks' numbers. -/
  leaders : List Nat
  /-- The same positions in ascending order. -/
  starts : List Nat

/-- The blocks of a piece of code. -/
def Layout.of (code : List Instruction) (regions : List Region) : Layout :=
  let found := Cfg.leaders code regions
  ⟨code, regions, found, (List.range code.length).filter found.contains⟩

namespace Layout

variable (l : Layout)

/-- The number of the block that begins at a position. -/
def blockAtIndex? (index : Nat) : Option NodeId := (l.leaders.idxOf? index).map (· + 2)

/-- The number of the block that begins at an offset. -/
def blockAt? (o : Offset) : Option NodeId := (indexOf? l.code o).bind l.blockAtIndex?

/-- The position where the block after the one at `start` begins. -/
def nextStart? (start : Nat) : Option Nat := l.starts.find? fun s => start < s

/-- The instructions of the block that begins at a position. -/
def blockCode (start : Nat) : List Instruction :=
  (l.code.drop start).take ((l.nextStart? start).getD l.code.length - start)

/-- The first handler entry, block by block, that does not begin a block. -/
def badHandler? : Option Offset :=
  l.starts.findSome? fun start =>
    (l.code[start]?).bind fun i =>
      (l.regions.filter fun r => r.protects i.offset).findSome? fun r =>
        r.entries.find? fun e => (l.blockAt? e).isNone

/-! ## Edges -/

/-- Where control goes on behind a finally handler that ends at an offset: to the targets of the
leaves that take control out of the protected range. -/
def continuations (o : Offset) : List NodeId :=
  ((l.regions.filter fun r => r.handler == .finally && r.handles o).flatMap fun r =>
    l.code.filterMap fun i =>
      match i.op with
      | .branch .leave target =>
        if r.protects i.offset && !r.protects target then l.blockAt? target else none
      | _ => none).eraseDups

/-- The kind of the edge that a taken branch makes. -/
def branchEdge : BranchKind → EdgeKind
  | .unconditional => .unconditional
  | .conditional => .conditional
  | .leave => .leave

/-- The transfers that the last instruction of a block makes itself. -/
def transfers (config : Config) (last : Instruction) : List (NodeId × EdgeKind) :=
  match last.op with
  | .branch kind target => (l.blockAt? target).toList.map fun n => (n, branchEdge kind)
  | .switch targets =>
    targets.zipIdx.filterMap fun (t, case) => (l.blockAt? t).map fun n => (n, .switch case)
  | .return _ => [(exit, .return)]
  | .throw _ => [(exit, .throw)]
  | .rethrow => [(exit, .throw)]
  | .endFinally =>
    let targets := if config.finallyEdges then l.continuations last.offset else []
    if targets.isEmpty then [(exit, .endFinally)]
    else targets.map fun n => (n, .endFinally)
  | _ => []

/-- The transfers to the handlers of the regions that protect an offset. -/
def handlerTransfers (o : Offset) : List (NodeId × EdgeKind) :=
  (l.regions.filter fun r => r.protects o).flatMap fun r =>
    r.entries.filterMap fun e => (l.blockAt? e).map fun n => (n, .handler r.exceptionType)

/-- All transfers out of the block that begins at a position. -/
def blockTransfers (config : Config) (start : Nat) : List (NodeId × EdgeKind) :=
  let code := l.blockCode start
  let own := (code.getLast?.map (l.transfers config)).getD []
  let next := ((l.nextStart? start).bind l.blockAtIndex?).getD exit
  let onward :=
    if code.getLast?.any fun last => last.op.fallsThrough then [(next, EdgeKind.fallThrough)]
    else []
  let handlers :=
    if config.exceptionalEdges then
      (code.head?.map fun first => l.handlerTransfers first.offset).getD []
    else []
  own ++ onward ++ handlers

/-- All edges in the order in which they are added. -/
def edges (config : Config) : List (NodeId × NodeId × EdgeKind) :=
  match l.starts.head?, l.starts.getLast? with
  | some first, some last =>
    (l.blockAtIndex? first).toList.map (fun n => (entry, n, EdgeKind.entry))
      ++ l.starts.flatMap (fun start =>
        (l.blockAtIndex? start).toList.flatMap fun n =>
          (l.blockTransfers config start).map fun t => (n, t.1, t.2))
      ++ (l.blockAtIndex? last).toList.map (fun n => (n, exit, EdgeKind.fallThrough))
  | _, _ => [(entry, exit, .entry)]

/-- The nodes: entry, exit and the blocks by number. -/
def nodes : List CfgNode :=
  .entry :: .exit :: l.leaders.map fun start => .block (l.blockCode start)

/-- The graph of the nodes and edges. -/
def graph (config : Config) : Digraph CfgNode EdgeKind :=
  (l.edges config).foldl (fun g e => g.connect e.1 e.2.1 e.2.2)
    (l.nodes.foldl Digraph.addNode .empty)

end Layout

/-! ## The whole construction -/

/-- The first fault of the code, in the order in which the checks are made. -/
def fault? (method : Option MethodRef) (code : List Instruction) (regions : List Region)
    (config : Config) : Option Malformation :=
  match disorder? code with
  | some o => some (.offsetsNotIncreasing method o)
  | none =>
    match badBound? code regions with
    | some o => some (.boundMissing method o)
    | none =>
      match badTarget? code with
      | some (o, t) => some (.targetMissing method o t)
      | none =>
        if config.exceptionalEdges then
          (Layout.of code regions).badHandler?.map (.entryMissing method)
        else none

/-- The control flow graph of instructions and regions. -/
def build (method : Option MethodRef) (code : List Instruction) (regions : List Region)
    (config : Config) : Except Error Cfg :=
  match fault? method code regions config with
  | some fault => .error (.malformed fault)
  | none => .ok ⟨method, (Layout.of code regions).graph config⟩

/-- The control flow graph of a method body. -/
def ofBody (body : Body) (config : Config) : Except Error Cfg :=
  build (some body.method) body.code body.regions config

/-- The control flow graphs of several bodies, or the fault of each. -/
def ofBodies (bodies : List Body) (config : Config) : List (Except Error Cfg) :=
  bodies.map fun body => ofBody body config

end Cfg

end MethodFlow
