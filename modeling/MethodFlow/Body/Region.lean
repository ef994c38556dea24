import MethodFlow.Model.MethodRef
import MethodFlow.Text.Label

/-!
# Protected regions

A region protects a range of instructions and names the range of its handler.  Ranges are
half-open: the end is the first offset behind them.
-/

namespace MethodFlow

/-- What a handler reacts to. -/
inductive Handler where
  | catch (type : TypeName)
  | catchAll
  /-- Asks the code at `start` whether to handle the exception. -/
  | filter (start : Offset)
  | fault
  | finally
  deriving DecidableEq, Repr, Inhabited

/-- A protected range with its handler. -/
structure Region where
  tryStart : Offset
  tryEnd : Offset
  handlerStart : Offset
  handlerEnd : Offset
  handler : Handler
  deriving DecidableEq, Repr, Inhabited

namespace Region

/-- Whether the protected range contains an offset. -/
def protects (r : Region) (o : Offset) : Bool := r.tryStart ≤ o && o < r.tryEnd

/-- Whether the handler's range contains an offset. -/
def handles (r : Region) (o : Offset) : Bool := r.handlerStart ≤ o && o < r.handlerEnd

/-- Where control enters the handler: the filter, if there is one, and the handler itself. -/
def entries (r : Region) : List Offset :=
  match r.handler with
  | .filter start => [start, r.handlerStart]
  | _ => [r.handlerStart]

/-- The offsets that bound the ranges of the region. -/
def boundaries (r : Region) : List Offset := r.tryStart :: r.tryEnd :: (r.entries ++ [r.handlerEnd])

/-- The type of the exceptions that the handler catches, if it catches by type. -/
def exceptionType (r : Region) : Option TypeName :=
  match r.handler with
  | .catch type => some type
  | _ => none

/-- Whether the handler runs without handling the exception. -/
def isCleanup (r : Region) : Bool :=
  match r.handler with
  | .finally => true
  | .fault => true
  | _ => false

end Region

end MethodFlow
