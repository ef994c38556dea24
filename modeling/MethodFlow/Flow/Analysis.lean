import MethodFlow.Cfg.Basic
import MethodFlow.Config
import MethodFlow.Info

/-!
# Dataflow analyses and their solution

An analysis assigns a fact to both sides of every node.  The fact that flows into a node is the
join of the facts that flow out of its neighbours, and the fact that flows out is the node's
transfer of the one that flows in.  A forward analysis flows along the edges from the entry, a
backward one against them from the exit.

The solver passes over the nodes in an order that follows the flow until a pass changes no
outgoing fact, or until the pass limit is reached.  Neighbours without a fact yet are left out of
a join.  An analysis may carry a state from one transfer to the next.
-/

namespace MethodFlow

/-- Which way facts flow. -/
inductive Direction where
  | forward
  | backward
  deriving DecidableEq, Repr

/-- A dataflow analysis with facts of type `φ` and a state of type `σ`. -/
structure Analysis (σ φ : Type) where
  name : String
  direction : Direction
  /-- The fact that flows into the node where the flow begins. -/
  boundary : φ
  /-- The fact that flows into a node none of whose neighbours has a fact. -/
  initial : φ
  /-- Combines the facts of the neighbours, of which there is at least one. -/
  join : List φ → Except Error φ
  /-- What a node makes of the fact that flows into it. -/
  transfer : σ → NodeId → φ → Except Error (φ × σ)
  /-- Whether two facts count as the same. -/
  same : φ → φ → Bool

/-- The facts at the nodes, as the flow meets them. -/
structure FlowFacts (φ : Type) where
  flowIn : Array (Option φ)
  flowOut : Array (Option φ)

namespace Analysis

variable {σ φ : Type}

/-- The graph turned so that facts flow along its edges. -/
def orient (a : Analysis σ φ) (v : View) : View :=
  match a.direction with
  | .forward => v
  | .backward => v.reverse

/-- The node where the flow begins. -/
def origin (a : Analysis σ φ) : NodeId :=
  match a.direction with
  | .forward => Cfg.entry
  | .backward => Cfg.exit

/-- A solution under construction. -/
structure State (σ φ : Type) where
  facts : FlowFacts φ
  memory : σ
  /-- Whether the pass under way has changed an outgoing fact. -/
  changed : Bool

/-- The fact that flows into a node. -/
def incoming (a : Analysis σ φ) (v : View) (facts : FlowFacts φ) (node : NodeId) :
    Except Error φ :=
  if node = a.origin then .ok a.boundary
  else
    let known := (v.pred node).filterMap fun n => (facts.flowOut[n]?).join
    if known.isEmpty then .ok a.initial else a.join known

/-- Brings the facts of one node up to date. -/
def update (a : Analysis σ φ) (v : View) (s : State σ φ) (node : NodeId) :
    Except Error (State σ φ) := do
  let fact ← a.incoming v s.facts node
  let (result, memory) ← a.transfer s.memory node fact
  let flowIn := s.facts.flowIn.setIfInBounds node (some fact)
  let unchanged :=
    match (s.facts.flowOut[node]?).join with
    | some old => a.same old result
    | none => false
  if unchanged then
    return { s with facts := { s.facts with flowIn }, memory }
  else
    return ⟨⟨flowIn, s.facts.flowOut.setIfInBounds node (some result)⟩, memory, true⟩

/-- One pass over the nodes in the given order. -/
def pass (a : Analysis σ φ) (v : View) (order : List NodeId) (s : State σ φ) :
    Except Error (State σ φ) :=
  order.foldlM (a.update v) { s with changed := false }

/-- What a run of the solver leaves behind: how many passes it completed, and its last state or
the failure that ended it. -/
structure Run (σ φ : Type) where
  passes : Nat
  result : Except Error (State σ φ)

/-- Passes over the nodes until nothing changes, at most `remaining` times. -/
def iterate (a : Analysis σ φ) (v : View) (order : List NodeId) (limit : Nat) :
    (remaining passes : Nat) → State σ φ → Run σ φ
  | 0, passes, _ => ⟨passes, .error (.notConverged a.name limit)⟩
  | remaining + 1, passes, s =>
    match a.pass v order s with
    | .error e => ⟨passes, .error e⟩
    | .ok s =>
      if s.changed then iterate a v order limit remaining (passes + 1) s
      else ⟨passes + 1, .ok s⟩

/-- Solves the analysis on a graph, with the state that its first transfer sees. -/
def run (a : Analysis σ φ) (c : Cfg) (limit : Nat) (memory : σ) : Run σ φ :=
  let v := a.orient c.view
  let blank := Array.replicate c.size none
  a.iterate v v.topologicalOrder limit limit 0 ⟨⟨blank, blank⟩, memory, false⟩

/-- What a run says about itself: whether each pass changed something, and a warning if the limit
was reached. -/
def events (a : Analysis σ φ) (c : Cfg) (r : Run σ φ) : List LogEvent :=
  let converged := match r.result with
    | .ok _ => true
    | .error _ => false
  let passes := (List.range r.passes).map fun i =>
    let changed := !(converged && i + 1 == r.passes)
    ⟨.trace, s!"{a.name} pass {i + 1} over {methodLabel c.method}: changed={changed}"⟩
  let warning := match r.result with
    | .error (.notConverged _ _) =>
      [⟨.warn, s!"{a.name} did not converge after {r.passes} passes over {methodLabel c.method}"⟩]
    | _ => []
  passes ++ warning

end Analysis

/-! ## Solved analyses -/

/-- The types of the facts that are kept with the nodes of a solved analysis. -/
inductive FactTag where
  /-- A fact of the analysis. -/
  | fact
  /-- A number added from outside. -/
  | number
  deriving DecidableEq, Repr

/-- The type that a tag stands for. -/
def FactTag.type (φ : Type) : FactTag → Type
  | .fact => φ
  | .number => Nat

/-- A solved analysis: the facts before and after each node in the order of execution. -/
structure Solution (σ φ : Type) where
  facts : InfoStore NodeId FactTag (FactTag.type φ)
  passes : Nat
  /-- The state after the last transfer. -/
  memory : σ

namespace Solution

variable {σ φ : Type}

/-- The key of the fact before a node. -/
def inputKey : InfoKey FactTag.fact := ⟨"dataflow.input"⟩

/-- The key of the fact after a node. -/
def outputKey : InfoKey FactTag.fact := ⟨"dataflow.output"⟩

/-- Stores one fact, if there is one. -/
def store (facts : InfoStore NodeId FactTag (FactTag.type φ)) (key : InfoKey FactTag.fact)
    (node : NodeId) : Option φ → InfoStore NodeId FactTag (FactTag.type φ)
  | some fact => facts.set node key fact
  | none => facts

/-- The solution that the last state of a run holds. -/
def ofState (direction : Direction) (size passes : Nat) (s : Analysis.State σ φ) : Solution σ φ :=
  let (before, after) := match direction with
    | .forward => (s.facts.flowIn, s.facts.flowOut)
    | .backward => (s.facts.flowOut, s.facts.flowIn)
  let facts := (List.range size).foldl
    (fun facts n =>
      store (store facts inputKey n (before[n]?).join) outputKey n (after[n]?).join)
    InfoStore.empty
  ⟨facts, passes, s.memory⟩

/-- The fact before a node. -/
def input? (s : Solution σ φ) (n : NodeId) : Option φ := s.facts.get? n inputKey

/-- The fact after a node. -/
def output? (s : Solution σ φ) (n : NodeId) : Option φ := s.facts.get? n outputKey

end Solution

/-- Solves an analysis on a graph within the pass limit of the settings. -/
def Analysis.solve {σ φ : Type} (a : Analysis σ φ) (c : Cfg) (config : Config) (memory : σ) :
    Except Error (Solution σ φ) :=
  let r := a.run c config.maxIterations memory
  r.result.map (Solution.ofState a.direction c.size r.passes)

end MethodFlow
