import MethodFlow.Flow.Analysis

/-!
# Copy propagation

A fact maps a variable to the variable it was copied from, as long as neither has been written
since.  Where paths meet, only the copies that all of them made remain.
-/

namespace MethodFlow

/-- The copies in force: each destination with its source. -/
structure Copies where
  sources : SortedMap Variable Variable
  deriving DecidableEq

namespace Copies

/-- No copies. -/
def empty : Copies := ⟨.empty⟩

/-- The variable that a variable was copied from. -/
def source? (c : Copies) (x : Variable) : Option Variable := c.sources.get? x

/-- Follows copies from a variable for at most the given number of steps. -/
def follow (c : Copies) : Nat → Variable → Variable
  | 0, x => x
  | steps + 1, x =>
    match c.source? x with
    | some source => c.follow steps source
    | none => x

/-- The variable at the end of the chain of copies.  A chain is never longer than the number of
copies, because copies do not form cycles. -/
def resolve (c : Copies) (x : Variable) : Variable := c.follow c.sources.size x

/-- The number of copies. -/
def size (c : Copies) : Nat := c.sources.size

def isEmpty (c : Copies) : Bool := c.sources.isEmpty

/-- Drops every copy to or from a variable. -/
def kill (c : Copies) (x : Variable) : Copies :=
  ⟨c.sources.filter fun dest source => dest ≠ x && source ≠ x⟩

/-- The copies after an instruction: writing a variable ends its copies, and a copy of another
variable begins one. -/
def apply (c : Copies) (i : Instruction) : Copies :=
  let c := match i.op.defined with
    | some dest => c.kill dest
    | none => c
  match i.op with
  | .copy dest source => if dest = source then c else ⟨c.sources.insert dest source⟩
  | _ => c

/-- The copies that both facts hold. -/
def meet (c d : Copies) : Copies :=
  ⟨c.sources.filter fun dest source => d.source? dest == some source⟩

/-- The copies that all facts hold. -/
def join : List Copies → Copies
  | [] => empty
  | first :: rest => rest.foldl meet first

/-- The copy propagation analysis of a graph. -/
def analysis (c : Cfg) : Analysis Unit Copies where
  name := "copy-propagation"
  direction := .forward
  boundary := empty
  initial := empty
  join facts := .ok (join facts)
  transfer _ n fact := .ok ((c.codeOf n).foldl apply fact, ())
  same a b := a == b

end Copies

/-- The variable that holds the same value as `x` at the end of a node. -/
def Solution.resolve (s : Solution Unit Copies) (n : NodeId) (x : Variable) : Variable :=
  match s.output? n with
  | some facts => facts.resolve x
  | none => x

end MethodFlow
