import MethodFlow.Data.SortedSet
import MethodFlow.Flow.Analysis

/-!
# Live variables

A variable is live where some later instruction may read it before it is written.
-/

namespace MethodFlow

namespace Liveness

/-- The live variables before an instruction, from those behind it. -/
def apply (i : Instruction) (behind : SortedSet Variable) : SortedSet Variable :=
  i.op.used.foldl SortedSet.insert
    (match i.op.defined with
      | some x => behind.erase x
      | none => behind)

/-- The liveness analysis of a graph. -/
def analysis (c : Cfg) : Analysis Unit (SortedSet Variable) where
  name := "live"
  direction := .backward
  boundary := .empty
  initial := .empty
  join facts := .ok (facts.foldl SortedSet.union .empty)
  transfer _ n fact := .ok ((c.codeOf n).foldr apply fact, ())
  same a b := a == b

end Liveness

end MethodFlow
