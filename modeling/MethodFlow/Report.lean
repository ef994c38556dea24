import MethodFlow.Calls.Build
import MethodFlow.Cfg.Build
import MethodFlow.Flow.Copies
import MethodFlow.Flow.Types
import MethodFlow.Heap.PointsTo
import MethodFlow.Ssa.Build

/-!
# The log of a full study of a method

All analyses run one after another: the control flow graph with its dominators, single assignment
form, the class hierarchy, the dataflow analyses and the call graph.  The log holds what each has
to say about its work, and the study stops at the first failure.
-/

namespace MethodFlow

/-- What a study leaves behind. -/
structure Report where
  events : List LogEvent
  failure : Option Error

namespace Report

/-- A computation that writes a log, which it keeps when it fails. -/
abbrev Logged := ExceptT Error (StateM (List LogEvent))

/-- Adds events to the log. -/
def log (events : List LogEvent) : Logged Unit := modify fun old => old ++ events

/-- Runs a dataflow analysis and logs its passes. -/
def solve {σ φ : Type} (a : Analysis σ φ) (c : Cfg) (r : Analysis.Run σ φ) : Logged Unit := do
  log (a.events c r)
  match r.result with
  | .ok _ => return
  | .error e => throw e

/-- Runs all analyses on a method whose control flow graph may have failed. -/
def study (graph : Except Error Cfg) (body : Body) (config : Config) (u : Universe)
    (roots : List MethodRef) : Logged Unit := do
  let c ← liftExcept graph
  log [c.event, c.dominators.event, c.postDominators.event, (SsaForm.ofCfg c).event c]
  let (h, _, events) := (HierarchyStudy.new u).analyze
  log events
  let copies := Copies.analysis c
  solve copies c (copies.run c config.maxIterations ())
  let types := TypeFacts.analysis h body.parameters c
  solve types c (types.run c config.maxIterations ())
  let (heap, run) ← liftExcept (PointsTo.run c body.parameters config.maxIterations (.new 0))
  solve heap c run
  let g ← liftExcept (CallGraph.build u h roots)
  log [g.event roots]
where
  /-- Fails where the computation has failed. -/
  liftExcept {α : Type} : Except Error α → Logged α
    | .ok a => pure a
    | .error e => throw e

/-- The report of a study. -/
def of (graph : Except Error Cfg) (body : Body) (config : Config) (u : Universe)
    (roots : List MethodRef) : Report :=
  match (study graph body config u roots).run.run [] with
  | (.ok _, events) => ⟨events, none⟩
  | (.error e, events) => ⟨events, some e⟩

end Report

end MethodFlow
