import MethodFlow.Ssa.Build

/-!
# Single assignment form by environments

What stacks of versions compute on a walk down the dominator tree can be told
without them.  The table of versions is known beforehand: the versions at the
entry, then the phi nodes, then the definitions in the order of the walk.  So
every site has its number from the start, and a node is renamed by an
environment that maps each variable to its current version: that of its parent
in the tree when the parent is done, or version 0 of everything.

This is the form that most proofs about single assignment work with.  That
construction arrives at it is shown in `MethodFlow.Proofs.Ssa.Construction`.

## Main definitions

* `Ssa.renameOrder`, `Ssa.versions`: the order of the walk, and the table.
* `Ssa.entering`, `Ssa.leaving`: the current versions at either end of a node.
* `Ssa.nodeBlock`, `Ssa.nodeReads`: the block of a node in the form, and what
  reads while it is renamed.
-/

namespace MethodFlow

namespace Ssa

/-- The current version of each variable. -/
abbrev Env := SortedMap Variable SsaId

/-! ## The table of versions -/

/-- The nodes in renaming order: every parent before its children. -/
def renameOrder (c : Cfg) (d : Dominators) : List NodeId :=
  explore d.children c.view.nodes (roots c d)

/-- The definitions of code of a node from an index on. -/
def codeDefs (n : NodeId) (index : Nat) (code : List Instruction) : List (Variable × DefSite) :=
  (code.zipIdx index).filterMap fun (i, index) =>
    i.op.defined.map fun x => (x, .instruction n index)

/-- The definitions of a block with the index of their instruction. -/
def blockDefs (c : Cfg) (n : NodeId) : List (Variable × DefSite) := codeDefs n 0 (c.codeOf n)

/-- All versions by number: the variable and where the version is defined. -/
def table (c : Cfg) (d : Dominators) (order : List NodeId) : List (Variable × DefSite) :=
  (origins c).map (fun x => (x, .entry))
    ++ (origins c).flatMap (fun x => (phiBlocks c d x).map fun b => (x, .phi b))
    ++ order.flatMap (blockDefs c)

/-- The number of the version: how many versions of the variable stand before it in the table. -/
def versionOf (table : List (Variable × DefSite)) (id : SsaId) (x : Variable) : Nat :=
  (table.take id).countP fun e => e.1 == x

/-- The versions of the form of a graph. -/
def versions (c : Cfg) : List (Variable × DefSite) :=
  table c c.dominators (renameOrder c c.dominators)

/-! ## Environments -/

/-- The phi nodes of a block, without operands. -/
def barePhis (table : List (Variable × DefSite)) (n : NodeId) : List Phi :=
  table.zipIdx.filterMap fun (e, id) => if e.2 = .phi n then some ⟨id, e.1, []⟩ else none

/-- The versions current at a root: version 0 of every variable. -/
def startEnv (table : List (Variable × DefSite)) : Env :=
  table.zipIdx.foldl (fun env (e, id) => if e.2 = .entry then env.insert e.1 id else env) .empty

/-- The versions current behind the phi nodes of a node. -/
def withPhis (table : List (Variable × DefSite)) (n : NodeId) (env : Env) : Env :=
  (barePhis table n).foldl (fun env p => env.insert p.origin p.result) env

/-- The versions current behind an instruction. -/
def behind (table : List (Variable × DefSite)) (n k : Nat) (env : Env) (i : Instruction) :
    Env :=
  match i.op.defined, i.op.defined.bind fun x => table.idxOf? (x, .instruction n k) with
  | some x, some id => env.insert x id
  | _, _ => env

/-- Renames the instructions of a block from an index on; also gives the versions current behind
them. -/
def renameCode (table : List (Variable × DefSite)) (n : NodeId) :
    Nat → Env → List Instruction → List SsaInstruction × Env
  | _, env, [] => ([], env)
  | index, env, i :: rest =>
    let (renamed, last) := renameCode table n (index + 1) (behind table n index env i) rest
    (⟨i, i.op.defined.bind fun x => table.idxOf? (x, .instruction n index),
      i.op.used.filterMap env.get?⟩ :: renamed, last)

/-- The versions current at the end of a node that starts with the given ones. -/
def exitEnv (c : Cfg) (table : List (Variable × DefSite)) (n : NodeId) (env : Env) : Env :=
  (renameCode table n 0 (withPhis table n env) (c.codeOf n)).2

/-- The versions that a node starts with: those at the end of its parent. -/
def inherited (d : Dominators) (table : List (Variable × DefSite)) (done : SortedMap NodeId Env)
    (n : NodeId) : Env :=
  ((d.idom? n).bind done.get?).getD (startEnv table)

/-- The versions current at the ends of the nodes of a list, each after its parent. -/
def exitEnvs (c : Cfg) (d : Dominators) (table : List (Variable × DefSite))
    (order : List NodeId) : SortedMap NodeId Env :=
  order.foldl (fun done n => done.insert n (exitEnv c table n (inherited d table done n))) .empty

/-- The versions that are current before the phi nodes of a node. -/
def entering (c : Cfg) (n : NodeId) : Env :=
  inherited c.dominators (versions c)
    (exitEnvs c c.dominators (versions c) (renameOrder c c.dominators)) n

/-- The versions that are current at the end of a node. -/
def leaving (c : Cfg) (n : NodeId) : Env := exitEnv c (versions c) n (entering c n)

/-! ## Blocks and reads -/

/-- The operands of a phi node for those of the given nodes that lead to its block. -/
def operandsFrom (c : Cfg) (n : NodeId) (order : List NodeId) (x : Variable) : List PhiOperand :=
  (order.filter fun p => (c.view.succ p).contains n).filterMap fun p =>
    ((leaving c p).get? x).map fun id => ⟨id, p⟩

/-- The instructions of the block of a node. -/
def nodeCode (c : Cfg) (n : NodeId) : List SsaInstruction :=
  (renameCode (versions c) n 0 (withPhis (versions c) n (entering c n)) (c.codeOf n)).1

/-- The block of a node in the form. -/
def nodeBlock (c : Cfg) (n : NodeId) : SsaBlock where
  id := n
  phis := (barePhis (versions c) n).map fun phi =>
    { phi with operands := operandsFrom c n (renameOrder c c.dominators) phi.origin }
  code := nodeCode c n

/-- The reads of renamed code of a node from an index on. -/
def codeReads (n : NodeId) (index : Nat) (code : List SsaInstruction) : List (SsaId × UseSite) :=
  (code.zipIdx index).flatMap fun (i, index) => i.uses.map fun id => (id, .instruction n index)

/-- What the phi nodes of a block from an index on read for a predecessor that ends with the
given versions. -/
def phiReads (env : Env) (n : NodeId) (index : Nat) (phis : List Phi) : List (SsaId × UseSite) :=
  (phis.zipIdx index).filterMap fun (phi, index) =>
    (env.get? phi.origin).map fun id => (id, .phi n index)

/-- What reads while a node is renamed: its instructions, and the phi nodes of its successors. -/
def nodeReads (c : Cfg) (n : NodeId) : List (SsaId × UseSite) :=
  codeReads n 0 (nodeCode c n) ++
    (c.view.succ n).flatMap fun s => phiReads (leaving c n) s 0 (barePhis (versions c) s)

end Ssa

end MethodFlow
