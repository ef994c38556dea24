/-!
# Classes of characters

A class of characters is a list of ranges of code points, both ends included.
-/

namespace MethodFlow

/-- A class of characters, as ranges of their code points; both ends of a range belong to it. -/
abbrev CodeRanges := List (Nat × Nat)

/-- Whether a character belongs to the class. -/
def CodeRanges.has (ranges : CodeRanges) (c : Char) : Bool :=
  ranges.any fun range => range.1 ≤ c.toNat && c.toNat ≤ range.2

@[simp] theorem CodeRanges.has_iff {ranges : CodeRanges} {c : Char} :
    ranges.has c = true ↔ ∃ range ∈ ranges, range.1 ≤ c.toNat ∧ c.toNat ≤ range.2 := by
  simp [has]

end MethodFlow
