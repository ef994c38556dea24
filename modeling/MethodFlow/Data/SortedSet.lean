import MethodFlow.Data.Ordered

/-!
# Sets kept in order

A `SortedSet` is a strictly ascending list.  As with sorted maps the order is part of the type,
so sets with the same members are equal (`SortedSet.ext_mem`).

## Main results

* `SortedSet.mem_insert`, `SortedSet.mem_erase`, `SortedSet.mem_union` : membership after a
  change.
* `SortedSet.ext_mem` : sets with the same members are the same set.
-/

namespace MethodFlow

universe u

/-- The members of the list strictly ascend. -/
def Ascends {α : Type u} [Ordered α] (l : List α) : Prop :=
  l.Pairwise fun x y => Ordered.before x y = true

/-- A finite set whose members are listed in ascending order. -/
structure SortedSet (α : Type u) [Ordered α] where
  elems : List α
  ascending : Ascends elems

namespace SortedSet

variable {α : Type u} [Ordered α]

instance [DecidableEq α] : DecidableEq (SortedSet α) := fun a b =>
  if h : a.elems = b.elems then
    isTrue (by cases a; cases b; cases h; rfl)
  else
    isFalse (fun hab => h (by rw [hab]))

/-! ## Ascending lists -/

/-- The list with `a` put in its place, once. -/
def insertElem (a : α) : List α → List α
  | [] => [a]
  | b :: rest =>
    if Ordered.before a b then a :: b :: rest
    else if Ordered.before b a then b :: insertElem a rest
    else b :: rest

theorem mem_insertElem {a x : α} {l : List α} : x ∈ insertElem a l ↔ x = a ∨ x ∈ l := by
  induction l with
  | nil => simp [insertElem]
  | cons b rest ih =>
    simp only [insertElem]
    split
    · simp
    · next hlt =>
      split
      · simp only [List.mem_cons, ih]
        exact ⟨fun h => h.elim (fun h => .inr (.inl h)) (fun h => h.imp id .inr),
          fun h => h.elim (fun h => .inr (.inl h)) (fun h => h.imp id .inr)⟩
      · next hgt =>
        have hab : a = b := Ordered.before_connex _ _ (by simpa using hlt) (by simpa using hgt)
        subst hab
        simp

theorem ascends_insertElem (a : α) {l : List α} (h : Ascends l) : Ascends (insertElem a l) := by
  induction l with
  | nil => simp [insertElem, Ascends]
  | cons b rest ih =>
    have hrest := List.pairwise_cons.1 h
    simp only [insertElem]
    split
    case isTrue hlt =>
      refine List.pairwise_cons.2 ⟨fun x hx => ?_, h⟩
      rcases List.mem_cons.1 hx with rfl | hx
      · exact hlt
      · exact Ordered.before_trans _ _ _ hlt (hrest.1 x hx)
    case isFalse hlt =>
      split
      case isTrue hgt =>
        refine List.pairwise_cons.2 ⟨fun x hx => ?_, ih hrest.2⟩
        rcases mem_insertElem.1 hx with rfl | hx
        · exact hgt
        · exact hrest.1 x hx
      case isFalse hgt => exact h

/-! ## The set and its operations -/

/-- The set without members. -/
def empty : SortedSet α := ⟨[], List.Pairwise.nil⟩

instance : Inhabited (SortedSet α) := ⟨empty⟩

instance : Membership α (SortedSet α) := ⟨fun s a => a ∈ s.elems⟩

instance [DecidableEq α] (a : α) (s : SortedSet α) : Decidable (a ∈ s) :=
  inferInstanceAs (Decidable (a ∈ s.elems))

/-- The set of one member. -/
def singleton (a : α) : SortedSet α := ⟨[a], List.pairwise_singleton _ a⟩

/-- Whether `a` is a member. -/
def contains [DecidableEq α] (s : SortedSet α) (a : α) : Bool := decide (a ∈ s)

/-- Adds `a`. -/
def insert (s : SortedSet α) (a : α) : SortedSet α :=
  ⟨insertElem a s.elems, ascends_insertElem a s.ascending⟩

/-- Removes `a`. -/
def erase [DecidableEq α] (s : SortedSet α) (a : α) : SortedSet α :=
  ⟨s.elems.filter fun x => x ≠ a, s.ascending.sublist List.filter_sublist⟩

/-- Keeps the members that satisfy the test. -/
def filter (s : SortedSet α) (keep : α → Bool) : SortedSet α :=
  ⟨s.elems.filter keep, s.ascending.sublist List.filter_sublist⟩

/-- The members of either set. -/
def union (s t : SortedSet α) : SortedSet α := t.elems.foldl insert s

/-- The members of a list. -/
def ofList (l : List α) : SortedSet α := l.foldl insert empty

/-- The members, ascending. -/
def toList (s : SortedSet α) : List α := s.elems

/-- The number of members. -/
def size (s : SortedSet α) : Nat := s.elems.length

/-- Whether there is no member. -/
def isEmpty (s : SortedSet α) : Bool := s.elems.isEmpty

@[simp] theorem not_mem_empty (a : α) : ¬ a ∈ (empty : SortedSet α) := List.not_mem_nil

@[simp] theorem mem_singleton {a x : α} : x ∈ singleton a ↔ x = a := List.mem_singleton

@[simp] theorem mem_toList {s : SortedSet α} {x : α} : x ∈ s.toList ↔ x ∈ s := Iff.rfl

@[simp] theorem contains_iff_mem [DecidableEq α] {s : SortedSet α} {a : α} :
    s.contains a = true ↔ a ∈ s := by
  simp [contains]

@[simp] theorem mem_insert {s : SortedSet α} {a x : α} : x ∈ s.insert a ↔ x = a ∨ x ∈ s :=
  mem_insertElem

@[simp] theorem mem_erase [DecidableEq α] {s : SortedSet α} {a x : α} :
    x ∈ s.erase a ↔ x ∈ s ∧ x ≠ a := by
  show x ∈ s.elems.filter _ ↔ _
  simp only [List.mem_filter, decide_eq_true_eq]
  rfl

@[simp] theorem mem_filter {s : SortedSet α} {keep : α → Bool} {x : α} :
    x ∈ s.filter keep ↔ x ∈ s ∧ keep x = true :=
  List.mem_filter

private theorem mem_foldl_insert {l : List α} {s : SortedSet α} {x : α} :
    x ∈ l.foldl insert s ↔ x ∈ s ∨ x ∈ l := by
  induction l generalizing s with
  | nil => simp
  | cons a rest ih =>
    rw [List.foldl_cons, ih, mem_insert, List.mem_cons]
    exact ⟨fun h => h.elim (fun h => h.elim (fun h => .inr (.inl h)) .inl) (fun h => .inr (.inr h)),
      fun h => h.elim (fun h => .inl (.inr h)) (fun h => h.elim (fun h => .inl (.inl h)) .inr)⟩

@[simp] theorem mem_union {s t : SortedSet α} {x : α} : x ∈ s.union t ↔ x ∈ s ∨ x ∈ t :=
  mem_foldl_insert

@[simp] theorem mem_ofList {l : List α} {x : α} : x ∈ ofList l ↔ x ∈ l := by
  rw [ofList, mem_foldl_insert]
  simp

private theorem elems_eq_of_mem_iff {l l' : List α} (h : Ascends l) (h' : Ascends l')
    (hmem : ∀ x, x ∈ l ↔ x ∈ l') : l = l' := by
  induction l generalizing l' with
  | nil =>
    cases l' with
    | nil => rfl
    | cons head rest => exact absurd ((hmem head).2 List.mem_cons_self) (by simp)
  | cons head rest ih =>
    cases l' with
    | nil => exact absurd ((hmem head).1 List.mem_cons_self) (by simp)
    | cons head' rest' =>
      have hp := List.pairwise_cons.1 h
      have hp' := List.pairwise_cons.1 h'
      have hhead : head = head' := by
        rcases List.mem_cons.1 ((hmem head).1 List.mem_cons_self) with heq | hin
        · exact heq
        · rcases List.mem_cons.1 ((hmem head').2 List.mem_cons_self) with heq' | hin'
          · exact heq'.symm
          · have h1 := hp'.1 _ hin
            have h2 := hp.1 _ hin'
            exact absurd h1 (by simp [Ordered.before_asymm h2])
      subst hhead
      congr 1
      refine ih hp.2 hp'.2 fun x => ⟨fun hx => ?_, fun hx => ?_⟩
      · rcases List.mem_cons.1 ((hmem x).1 (List.mem_cons_of_mem _ hx)) with rfl | h1
        · exact absurd (hp.1 _ hx) (by simp [Ordered.before_irrefl])
        · exact h1
      · rcases List.mem_cons.1 ((hmem x).2 (List.mem_cons_of_mem _ hx)) with rfl | h1
        · exact absurd (hp'.1 _ hx) (by simp [Ordered.before_irrefl])
        · exact h1

/-- **Extensionality**: sets with the same members are the same set. -/
theorem ext_mem {s t : SortedSet α} (h : ∀ x, x ∈ s ↔ x ∈ t) : s = t := by
  have helems : s.elems = t.elems := elems_eq_of_mem_iff s.ascending t.ascending h
  cases s; cases t; cases helems; rfl

end SortedSet

end MethodFlow
