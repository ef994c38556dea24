/-!
# Strict total orders as Boolean tests

Sorted containers and sorted answers need a decidable strict order in which two values that
neither precede each other are equal.  `Ordered` packs the test with its three laws, and the
constructions below build it from the parts of a value: pairs and lists lexicographically,
an optional value with the absent one first, and any type through an injective key.

Texts are ordered by code point, which is also the order of their UTF-8 bytes.
-/

namespace MethodFlow

universe u v

/-- A strict total order given by a Boolean test. -/
class Ordered (α : Type u) where
  /-- Whether the first value stands strictly before the second. -/
  before : α → α → Bool
  before_irrefl : ∀ a, before a a = false
  before_trans : ∀ a b c, before a b = true → before b c = true → before a c = true
  before_connex : ∀ a b, before a b = false → before b a = false → a = b

namespace Ordered

variable {α : Type u} {β : Type v}

theorem before_asymm [Ordered α] {a b : α} (h : before a b = true) : before b a = false := by
  cases hb : before b a with
  | false => rfl
  | true =>
    have haa := before_trans a b a h hb
    rw [before_irrefl] at haa
    exact absurd haa (by decide)

theorem ne_of_before [Ordered α] {a b : α} (h : before a b = true) : a ≠ b := by
  intro hab
  rw [hab, before_irrefl] at h
  exact absurd h (by decide)

/-- The order that an injective key carries over from its values. -/
@[reducible] def ofKey [Ordered β] (key : α → β) (key_inj : ∀ a b, key a = key b → a = b) :
    Ordered α where
  before a b := before (key a) (key b)
  before_irrefl a := before_irrefl (key a)
  before_trans a b c := before_trans (key a) (key b) (key c)
  before_connex a b hab hba := key_inj a b (before_connex _ _ hab hba)

instance : Ordered Nat where
  before a b := decide (a < b)
  before_irrefl a := by simp
  before_trans a b c hab hbc := by
    simp only [decide_eq_true_eq] at hab hbc ⊢
    omega
  before_connex a b hab hba := by
    simp only [decide_eq_false_iff_not] at hab hba
    omega

instance [Ordered α] [Ordered β] : Ordered (α × β) where
  before a b := before a.1 b.1 || (!before b.1 a.1 && before a.2 b.2)
  before_irrefl a := by simp [before_irrefl]
  before_trans a b c hab hbc := by
    simp only [Bool.or_eq_true, Bool.and_eq_true, Bool.not_eq_true'] at hab hbc ⊢
    rcases hab with hab | ⟨hab, hab'⟩ <;> rcases hbc with hbc | ⟨hbc, hbc'⟩
    · exact .inl (before_trans _ _ _ hab hbc)
    · cases hcb : before b.1 c.1 with
      | true => exact .inl (before_trans _ _ _ hab hcb)
      | false => exact .inl (before_connex _ _ hcb hbc ▸ hab)
    · cases hba : before a.1 b.1 with
      | true => exact .inl (before_trans _ _ _ hba hbc)
      | false => exact .inl (before_connex _ _ hba hab ▸ hbc)
    · cases hba : before a.1 b.1 with
      | true =>
        cases hcb : before b.1 c.1 with
        | true => exact .inl (before_trans _ _ _ hba hcb)
        | false => exact .inl (before_connex _ _ hcb hbc ▸ hba)
      | false =>
        refine .inr ⟨?_, before_trans _ _ _ hab' hbc'⟩
        exact (before_connex _ _ hba hab).symm ▸ hbc
  before_connex a b hab hba := by
    simp only [Bool.or_eq_false_iff, Bool.and_eq_false_iff, Bool.not_eq_false'] at hab hba
    obtain ⟨hab1, hab2⟩ := hab
    obtain ⟨hba1, hba2⟩ := hba
    rw [hba1] at hab2
    rw [hab1] at hba2
    simp only [Bool.false_eq_true, false_or] at hab2 hba2
    exact Prod.ext (before_connex _ _ hab1 hba1) (before_connex _ _ hab2 hba2)

instance [Ordered α] : Ordered (Option α) where
  before
    | none, none => false
    | none, some _ => true
    | some _, none => false
    | some a, some b => before a b
  before_irrefl a := by cases a <;> simp [before_irrefl]
  before_trans a b c hab hbc := by
    cases a <;> cases b <;> cases c <;> simp_all
    exact before_trans _ _ _ hab hbc
  before_connex a b hab hba := by
    cases a <;> cases b <;> simp_all
    exact before_connex _ _ hab hba

instance : Ordered String where
  before a b := decide (a < b)
  before_irrefl a := by simp
  before_trans a b c hab hbc := by
    simp only [decide_eq_true_eq] at hab hbc ⊢
    exact String.lt_trans hab hbc
  before_connex a b hab hba := by
    simp only [decide_eq_false_iff_not, String.not_lt] at hab hba
    exact String.le_antisymm hba hab

end Ordered

end MethodFlow
