/-!
# Names of instruction offsets and graph nodes

An offset is named by `L_` and at least four upper-case hexadecimal digits, a node by `n` and
its number.
-/

namespace MethodFlow

/-- The number of a node of a graph; the first node has number 0. -/
abbrev NodeId := Nat

/-- A position in a method body. -/
abbrev Offset := Nat

/-- The greatest position; later ones are cut back to it. -/
def Offset.max : Offset := 4294967295

/-- The upper-case hexadecimal digits of a number. -/
def hexDigits (n : Nat) : List Char := (Nat.toDigits 16 n).map Char.toUpper

/-- The name of an offset: `L_` and its hexadecimal digits, filled up to four with zeros. -/
def Offset.label (offset : Offset) : String :=
  let digits := hexDigits offset
  "L_" ++ String.ofList (List.replicate (4 - digits.length) '0' ++ digits)

/-- The short name of a node. -/
def NodeId.label (node : NodeId) : String := s!"n{node}"

/-- The name of an edge: those of its ends. -/
def edgeLabel (source target : NodeId) : String := source.label ++ " -> " ++ target.label

/-- The name of a node that also says what it names. -/
def NodeId.describe (node : NodeId) : String := s!"NodeId({node})"

end MethodFlow
