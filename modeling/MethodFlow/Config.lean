/-!
# Settings of an analysis
-/

namespace MethodFlow

/-- What a control flow graph contains and how long a dataflow analysis may run. -/
structure Config where
  /-- The greatest number of passes over the nodes. -/
  maxIterations : Nat
  /-- Whether protected blocks have edges to their handlers. -/
  exceptionalEdges : Bool
  /-- Whether the end of a finally handler has edges to where the protected code was left for. -/
  finallyEdges : Bool
  deriving DecidableEq, Repr

namespace Config

/-- All edges and a thousand passes. -/
def default : Config := ⟨1000, true, true⟩

/-- Only the flow without exceptions. -/
def normalFlowOnly : Config := ⟨1000, false, false⟩

instance : Inhabited Config := ⟨default⟩

end Config

end MethodFlow
