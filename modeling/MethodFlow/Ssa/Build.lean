import MethodFlow.Cfg.Basic
import MethodFlow.Data.SortedSet
import MethodFlow.Ssa.Form

/-!
# Building single assignment form

A variable gets a phi node in every block, the exit excepted, that the iterated frontier of its
defining blocks contains; the entry counts as defining every variable.

Then a walk down the dominator tree renames the blocks.  It keeps a stack of live versions for
each variable, with the current one on top.  A block pushes the versions that its phi nodes and
its instructions define, reads what is current, and adds an operand to every phi node of its
successors.  When the walk leaves the part of the tree below the block, it pops what the block
has pushed.  A node without a closest dominator is the root of a tree of its own, and starts with
version 0 of everything.
-/

namespace MethodFlow

/-- The form of a graph before anything is renamed. -/
def SsaForm.unrenamed (c : Cfg) : SsaForm where
  method := c.method
  blocks := c.view.nodes.map fun n => ⟨n, [], (c.codeOf n).map fun i => ⟨i, none, []⟩⟩
  table := []

namespace Ssa

/-- The variables of the code, ascending. -/
def origins (c : Cfg) : List Variable :=
  (SortedSet.ofList (c.code.flatMap fun i => i.op.used ++ i.op.defined.toList)).toList

/-- The blocks that define a variable, and the entry. -/
def defBlocks (c : Cfg) (x : Variable) : List NodeId :=
  c.view.nodes.filter (fun n => (c.codeOf n).any fun i => i.op.defined == some x) ++ [Cfg.entry]

/-- The blocks that get a phi node for a variable. -/
def phiBlocks (c : Cfg) (d : Dominators) (x : Variable) : List NodeId :=
  (d.iteratedFrontier (defBlocks c x)).filter (· ≠ Cfg.exit)

/-- The roots of renaming: the entry and every other node without a closest dominator. -/
def roots (c : Cfg) (d : Dominators) : List NodeId :=
  Cfg.entry :: c.view.nodes.filter fun n => n ≠ Cfg.entry && (d.idom? n).isNone

/-- A turn of the walk. -/
inductive Visit where
  /-- Renames a node. -/
  | enter (n : NodeId)
  /-- Pops the versions that a node has pushed. -/
  | leave (pushed : List Variable)

/-- A form in the making. -/
structure Builder where
  form : SsaForm
  /-- The live versions of each variable, the current one first. -/
  versionStacks : SortedMap Variable (List SsaId)
  /-- The number of the next version of each variable. -/
  next : SortedMap Variable Nat

namespace Builder

/-- The current version of a variable. -/
def current? (b : Builder) (x : Variable) : Option SsaId := (b.versionStacks.get? x).bind List.head?

/-- Lists a new version behind all others. -/
def newVersion (b : Builder) (x : Variable) (site : DefSite) : SsaId × Builder :=
  let id := b.form.table.length
  let version := (b.next.get? x).getD 0
  let table := b.form.table ++ [⟨id, x, version, site, []⟩]
  (id, { b with form := { b.form with table }, next := b.next.insert x (version + 1) })

/-- Makes a version the current one. -/
def push (b : Builder) (x : Variable) (id : SsaId) : Builder :=
  { b with versionStacks := b.versionStacks.modify x (id :: ·) }

/-- Takes the current version away. -/
def pop (b : Builder) (x : Variable) : Builder :=
  { b with versionStacks := b.versionStacks.modify x List.tail }

/-- Takes the current version of each of the variables away. -/
def leave (b : Builder) (pushed : List Variable) : Builder := pushed.foldl pop b

/-- Lists a place that reads a version. -/
def addUse (b : Builder) (id : SsaId) (site : UseSite) : Builder :=
  { b with form := { b.form with table := b.form.table.modify id fun v => v.addUse site } }

def modifyBlock (b : Builder) (n : NodeId) (f : SsaBlock → SsaBlock) : Builder :=
  { b with form := { b.form with blocks := b.form.blocks.modify n f } }

/-- Begins with a variable: its version 0 is current at the entry. -/
def addOrigin (b : Builder) (x : Variable) : Builder :=
  let (id, b) := b.newVersion x .entry
  { b with versionStacks := b.versionStacks.insert x [id] }

/-- Gives a block a phi node, which is without operands yet. -/
def addPhi (b : Builder) (x : Variable) (n : NodeId) : Builder :=
  let (id, b) := b.newVersion x (.phi n)
  b.modifyBlock n fun t => { t with phis := t.phis ++ [⟨id, x, []⟩] }

/-- Reads variables at a place, which the current versions list. -/
def read (b : Builder) (site : UseSite) : List Variable → List SsaId × Builder
  | [] => ([], b)
  | x :: rest =>
    match b.current? x with
    | some id =>
      let (ids, b) := (b.addUse id site).read site rest
      (id :: ids, b)
    | none => b.read site rest

/-- Renames the instruction of a block at an index.  Also gives the variable of which a version
was pushed. -/
def renameInstruction (b : Builder) (n : NodeId) (index : Nat) (i : Instruction) :
    List Variable × Builder :=
  let (uses, b) := b.read (.instruction n index) i.op.used
  let set (defined : Option SsaId) (t : SsaBlock) : SsaBlock :=
    { t with code := t.code.modify index fun i => { i with defined, uses } }
  match i.op.defined.filter b.versionStacks.contains with
  | some x =>
    let (id, b) := b.newVersion x (.instruction n index)
    ([x], (b.push x id).modifyBlock n (set (some id)))
  | none => ([], b.modifyBlock n (set none))

/-- Renames the instructions of a block from an index on. -/
def renameCode (n : NodeId) : Nat → List Instruction → Builder → List Variable × Builder
  | _, [], b => ([], b)
  | index, i :: rest, b =>
    let (first, b) := b.renameInstruction n index i
    let (others, b) := renameCode n (index + 1) rest b
    (first ++ others, b)

/-- Adds the operand for a predecessor to the phi node of a block at an index. -/
def addOperand (b : Builder) (predecessor n : NodeId) (index : Nat) (phi : Phi) : Builder :=
  match b.current? phi.origin with
  | some id =>
    let b := b.modifyBlock n fun t =>
      { t with phis := t.phis.modify index fun phi => phi.addOperand ⟨id, predecessor⟩ }
    b.addUse id (.phi n index)
  | none => b

/-- Adds the operands for a predecessor to the phi nodes of a block. -/
def addOperands (b : Builder) (predecessor n : NodeId) : Builder :=
  match b.form.blocks[n]? with
  | some t => t.phis.zipIdx.foldl (fun b (phi, index) => b.addOperand predecessor n index phi) b
  | none => b

/-- Renames a block.  Also gives the variables of which versions were pushed. -/
def renameBlock (c : Cfg) (b : Builder) (n : NodeId) : List Variable × Builder :=
  match b.form.blocks[n]? with
  | some t =>
    let phis := t.phis.filter fun phi => b.versionStacks.contains phi.origin
    let b := phis.foldl (fun b phi => b.push phi.origin phi.result) b
    let (pushed, b) := renameCode n 0 (t.code.map SsaInstruction.instruction) b
    (phis.map Phi.origin ++ pushed, (c.view.succ n).foldl (fun b s => b.addOperands n s) b)
  | none => ([], b)

/-- Entering a pending node brings the end of the walk nearer, whatever it leads to. -/
theorem turns_lt {d : Dominators} {pending : List NodeId} {n : NodeId} (h : n ∈ pending)
    (pushed : List Variable) (rest : List Visit) :
    (pending.erase n).length * (d.idoms.size + 1) +
        ((d.children n).map Visit.enter ++ .leave pushed :: rest).length <
      pending.length * (d.idoms.size + 1) + (Visit.enter n :: rest).length := by
  have hchildren : (d.children n).length ≤ d.idoms.size :=
    Nat.le_trans (List.length_filter_le _ _) (Nat.le_of_eq List.length_range)
  have hpending : (pending.erase n).length + 1 = pending.length := by
    rw [List.length_erase_of_mem h]
    exact Nat.sub_add_cancel (List.length_pos_of_mem h)
  rw [← hpending, Nat.succ_mul]
  simp only [List.length_append, List.length_map, List.length_cons]
  omega

/-- Walks down the dominator tree.  A tree leads to each of its nodes once, so the nodes still
pending bound the walk. -/
def walk (c : Cfg) (d : Dominators) (pending : List NodeId) : List Visit → Builder → Builder
  | [], b => b
  | .leave pushed :: rest, b => walk c d pending rest (b.leave pushed)
  | .enter n :: rest, b =>
    if n ∈ pending then
      let (pushed, b) := b.renameBlock c n
      walk c d (pending.erase n) ((d.children n).map .enter ++ .leave pushed :: rest) b
    else walk c d pending rest b
termination_by visits => pending.length * (d.idoms.size + 1) + visits.length
decreasing_by
  · exact Nat.lt_succ_self _
  · exact turns_lt ‹_› _ _
  · exact Nat.lt_succ_self _

end Builder

end Ssa

/-- The single assignment form of a control flow graph. -/
def SsaForm.ofCfg (c : Cfg) : SsaForm :=
  let d := c.dominators
  let b : Ssa.Builder := ⟨.unrenamed c, .empty, .empty⟩
  let b := (Ssa.origins c).foldl Ssa.Builder.addOrigin b
  let b := (Ssa.origins c).foldl (fun b x => (Ssa.phiBlocks c d x).foldl (·.addPhi x) b) b
  (b.walk c d c.view.nodes ((Ssa.roots c d).map .enter)).form

/-- What the construction of the form says about itself. -/
def SsaForm.event (s : SsaForm) (c : Cfg) : LogEvent :=
  let count := (Ssa.origins c).length
  ⟨.debug, s!"built SSA form of {methodLabel c.method}: {count} variables, "
    ++ s!"{s.table.length} versions, {s.phis.length} phi nodes"⟩

end MethodFlow
