import MethodFlow.Text.Label

/-!
# Labels can be read back

Instructions are known by the labels of their offsets, so two offsets must
never share a label.  The digits of a label have no fixed number: there are at
least four, filled up with zeros, and more where the offset needs them.  What
keeps labels apart is that the number can be read off the digits again, and
that zeros in front do not count.
-/

namespace MethodFlow

/-- What an upper-case hexadecimal digit stands for. -/
def hexDigitValue (c : Char) : Nat := if c.isDigit then c.toNat - 48 else c.toNat - 55

/-- The number that upper-case hexadecimal digits write. -/
def hexValue (digits : List Char) : Nat :=
  digits.foldl (fun n c => 16 * n + hexDigitValue c) 0

theorem hexDigitValue_digitChar : ∀ d < 16, hexDigitValue (Nat.digitChar d).toUpper = d := by
  decide

theorem hexValue_concat (digits : List Char) (c : Char) :
    hexValue (digits ++ [c]) = 16 * hexValue digits + hexDigitValue c := by
  rw [hexValue, List.foldl_append]
  rfl

theorem hexValue_hexDigits (n : Nat) : hexValue (hexDigits n) = n := by
  induction n using Nat.strongRecOn with
  | ind n ih =>
      unfold hexDigits at ih ⊢
      by_cases hn : n < 16
      · rw [Nat.toDigits_of_lt_base hn]
        have hdigit := hexDigitValue_digitChar n hn
        simpa [hexValue] using hdigit
      · rw [Nat.toDigits_of_base_le (by decide) (by omega), List.map_append, List.map_singleton,
          hexValue_concat, ih (n / 16) (by omega), hexDigitValue_digitChar _ (by omega)]
        omega

/-- Zeros in front do not count. -/
theorem hexValue_zeros (k : Nat) (digits : List Char) :
    hexValue (List.replicate k '0' ++ digits) = hexValue digits := by
  induction k with
  | zero => rfl
  | succ k ih =>
      rw [List.replicate_succ, List.cons_append]
      exact ih

/-- The offset can be read off its label. -/
theorem hexValue_label (o : Offset) : hexValue (o.label.toList.drop 2) = o := by
  have hdigits : o.label.toList.drop 2 =
      List.replicate (4 - (hexDigits o).length) '0' ++ hexDigits o := by
    simp [Offset.label]
  rw [hdigits, hexValue_zeros, hexValue_hexDigits]

/-- **Different offsets have different labels.** -/
theorem Offset.eq_of_label {a b : Offset} (hlabel : a.label = b.label) : a = b := by
  rw [← hexValue_label a, hlabel, hexValue_label]

end MethodFlow
