import MethodFlow.Data.Ordered

/-!
# Maps kept in key order

A `SortedMap` is a list of entries whose keys strictly ascend.  The order is part of the type,
so a map has one representation and two maps are equal exactly when they answer every look-up
alike (`SortedMap.ext_get?`).

## Main results

* `SortedMap.get?_insert`, `SortedMap.get?_erase`, `SortedMap.get?_filter` : what a look-up sees
  after a change.
* `SortedMap.ext_get?` : maps with the same look-ups are the same map.
-/

namespace MethodFlow

universe u v

/-- The keys of the entries strictly ascend. -/
def KeysAscend {α : Type u} {β : Type v} [Ordered α] (entries : List (α × β)) : Prop :=
  entries.Pairwise fun x y => Ordered.before x.1 y.1 = true

/-- A finite map whose entries are listed in ascending key order. -/
structure SortedMap (α : Type u) (β : Type v) [Ordered α] where
  entries : List (α × β)
  ascending : KeysAscend entries

namespace SortedMap

variable {α : Type u} {β : Type v} [Ordered α]

instance [DecidableEq α] [DecidableEq β] : DecidableEq (SortedMap α β) := fun a b =>
  if h : a.entries = b.entries then
    isTrue (by cases a; cases b; cases h; rfl)
  else
    isFalse (fun hab => h (by rw [hab]))

/-! ## Entry lists -/

/-- The value of the entry for `k`, searched from the front. -/
def lookup (k : α) : List (α × β) → Option β
  | [] => none
  | (k', v) :: rest =>
    if Ordered.before k k' then none
    else if Ordered.before k' k then lookup k rest
    else some v

/-- The entries with the one for `k` added or replaced. -/
def insertEntry (k : α) (v : β) : List (α × β) → List (α × β)
  | [] => [(k, v)]
  | (k', v') :: rest =>
    if Ordered.before k k' then (k, v) :: (k', v') :: rest
    else if Ordered.before k' k then (k', v') :: insertEntry k v rest
    else (k, v) :: rest

/-- The entries without the one for `k`. -/
def eraseEntry (k : α) : List (α × β) → List (α × β)
  | [] => []
  | (k', v') :: rest =>
    if Ordered.before k k' then (k', v') :: rest
    else if Ordered.before k' k then (k', v') :: eraseEntry k rest
    else rest

theorem mem_insertEntry {k : α} {v : β} {l : List (α × β)} {e : α × β}
    (h : e ∈ insertEntry k v l) : e = (k, v) ∨ e ∈ l := by
  induction l with
  | nil => simpa [insertEntry] using h
  | cons head rest ih =>
    obtain ⟨k', v'⟩ := head
    simp only [insertEntry] at h
    split at h
    · simpa using h
    · split at h
      · rcases List.mem_cons.1 h with rfl | h
        · simp
        · rcases ih h with h | h
          · exact .inl h
          · exact .inr (List.mem_cons_of_mem _ h)
      · rcases List.mem_cons.1 h with h | h
        · exact .inl h
        · exact .inr (List.mem_cons_of_mem _ h)

theorem eraseEntry_sublist (k : α) (l : List (α × β)) : (eraseEntry k l).Sublist l := by
  induction l with
  | nil => simp [eraseEntry]
  | cons head rest ih =>
    obtain ⟨k', v'⟩ := head
    simp only [eraseEntry]
    split
    · exact List.Sublist.refl _
    · split
      · exact ih.cons_cons _
      · exact List.sublist_cons_self _ _

theorem keysAscend_insertEntry (k : α) (v : β) {l : List (α × β)} (h : KeysAscend l) :
    KeysAscend (insertEntry k v l) := by
  induction l with
  | nil => simp [insertEntry, KeysAscend]
  | cons head rest ih =>
    obtain ⟨k', v'⟩ := head
    have hrest := List.pairwise_cons.1 h
    simp only [insertEntry]
    split
    case isTrue hlt =>
      refine List.pairwise_cons.2 ⟨fun e he => ?_, h⟩
      rcases List.mem_cons.1 he with rfl | he
      · exact hlt
      · exact Ordered.before_trans _ _ _ hlt (hrest.1 e he)
    case isFalse hlt =>
      split
      case isTrue hgt =>
        refine List.pairwise_cons.2 ⟨fun e he => ?_, ih hrest.2⟩
        rcases mem_insertEntry he with rfl | he
        · exact hgt
        · exact hrest.1 e he
      case isFalse hgt =>
        have hk : k = k' := Ordered.before_connex _ _ (by simpa using hlt) (by simpa using hgt)
        subst hk
        exact List.pairwise_cons.2 hrest

theorem lookup_of_forall_before {k : α} {l : List (α × β)}
    (h : ∀ e ∈ l, Ordered.before k e.1 = true) : lookup k l = none := by
  cases l with
  | nil => rfl
  | cons head rest => simp [lookup, h head List.mem_cons_self]

theorem lookup_insertEntry (k : α) (v : β) (l : List (α × β)) (k' : α)
    (h : KeysAscend l) [DecidableEq α] :
    lookup k' (insertEntry k v l) = if k' = k then some v else lookup k' l := by
  induction l with
  | nil =>
    simp only [insertEntry, lookup]
    by_cases hk : k' = k
    · simp [hk, Ordered.before_irrefl]
    · rw [if_neg hk]
      split
      · rfl
      · next h1 =>
        split
        · rfl
        · next h2 =>
          exact absurd (Ordered.before_connex _ _ (by simpa using h1) (by simpa using h2)) hk
  | cons head rest ih =>
    obtain ⟨k₀, v₀⟩ := head
    have hrest := List.pairwise_cons.1 h
    have step := ih hrest.2
    simp only [insertEntry]
    by_cases hlt : Ordered.before k k₀ = true
    · rw [if_pos hlt]
      simp only [lookup]
      by_cases hk : k' = k
      · subst hk
        simp [Ordered.before_irrefl]
      · rw [if_neg hk]
        by_cases h1 : Ordered.before k' k = true
        · simp [h1, Ordered.before_trans _ _ _ h1 hlt]
        · have h2 : Ordered.before k k' = true := by
            cases h2 : Ordered.before k k' with
            | true => rfl
            | false => exact absurd (Ordered.before_connex _ _ (by simpa using h1) h2) hk
          simp [h1, h2]
    · rw [if_neg hlt]
      by_cases hgt : Ordered.before k₀ k = true
      · rw [if_pos hgt]
        simp only [lookup]
        by_cases hk : k' = k
        · subst hk
          simp [hlt, hgt, step]
        · simp [step, hk]
      · rw [if_neg hgt]
        have hk₀ : k = k₀ := Ordered.before_connex _ _ (by simpa using hlt) (by simpa using hgt)
        subst hk₀
        simp only [lookup]
        by_cases hk : k' = k
        · subst hk
          simp [Ordered.before_irrefl]
        · rw [if_neg hk]
          split
          · rfl
          · next h1 =>
            split
            · rfl
            · next h2 =>
              exact absurd (Ordered.before_connex _ _ (by simpa using h1) (by simpa using h2)) hk

theorem lookup_eraseEntry (k : α) (l : List (α × β)) (k' : α)
    (h : KeysAscend l) [DecidableEq α] :
    lookup k' (eraseEntry k l) = if k' = k then none else lookup k' l := by
  induction l with
  | nil => simp [eraseEntry, lookup]
  | cons head rest ih =>
    obtain ⟨k₀, v₀⟩ := head
    have hrest := List.pairwise_cons.1 h
    have step := ih hrest.2
    simp only [eraseEntry]
    by_cases hlt : Ordered.before k k₀ = true
    · rw [if_pos hlt]
      by_cases hk : k' = k
      · subst hk
        simp [lookup, hlt]
      · simp [hk]
    · rw [if_neg hlt]
      by_cases hgt : Ordered.before k₀ k = true
      · rw [if_pos hgt]
        simp only [lookup]
        by_cases hk : k' = k
        · subst hk
          simp [hlt, hgt, step]
        · simp [step, hk]
      · rw [if_neg hgt]
        have hk₀ : k = k₀ := Ordered.before_connex _ _ (by simpa using hlt) (by simpa using hgt)
        subst hk₀
        by_cases hk : k' = k
        · subst hk
          rw [if_pos rfl]
          exact lookup_of_forall_before hrest.1
        · rw [if_neg hk]
          simp only [lookup]
          split
          · next h1 =>
            exact lookup_of_forall_before fun e he => Ordered.before_trans _ _ _ h1 (hrest.1 e he)
          · next h1 =>
            split
            · rfl
            · next h2 =>
              exact absurd (Ordered.before_connex _ _ (by simpa using h1) (by simpa using h2)) hk

theorem lookup_eq_some_iff {k : α} {v : β} {l : List (α × β)} (h : KeysAscend l) :
    lookup k l = some v ↔ (k, v) ∈ l := by
  induction l with
  | nil => simp [lookup]
  | cons head rest ih =>
    obtain ⟨k₀, v₀⟩ := head
    have hrest := List.pairwise_cons.1 h
    simp only [lookup, List.mem_cons, Prod.mk.injEq]
    split
    case isTrue hlt =>
      refine ⟨fun hn => absurd hn (by simp), fun hm => ?_⟩
      rcases hm with ⟨rfl, -⟩ | hm
      · exact absurd hlt (by simp [Ordered.before_irrefl])
      · have := hrest.1 _ hm
        exact absurd hlt (by simp [Ordered.before_asymm this])
    case isFalse hlt =>
      split
      case isTrue hgt =>
        rw [ih hrest.2]
        refine ⟨.inr, fun hm => ?_⟩
        rcases hm with ⟨rfl, -⟩ | hm
        · exact absurd hgt (by simp [Ordered.before_irrefl])
        · exact hm
      case isFalse hgt =>
        have hk₀ : k = k₀ := Ordered.before_connex _ _ (by simpa using hlt) (by simpa using hgt)
        subst hk₀
        simp only [Option.some.injEq, true_and]
        refine ⟨fun hv => .inl hv.symm, fun hm => ?_⟩
        rcases hm with hv | hm
        · exact hv.symm
        · exact absurd (hrest.1 _ hm) (by simp [Ordered.before_irrefl])

/-! ## The map and its operations -/

/-- The map without entries. -/
def empty : SortedMap α β := ⟨[], List.Pairwise.nil⟩

instance : Inhabited (SortedMap α β) := ⟨empty⟩

/-- The value stored for `k`. -/
def get? (m : SortedMap α β) (k : α) : Option β := lookup k m.entries

/-- Whether `k` has a value. -/
def contains (m : SortedMap α β) (k : α) : Bool := (m.get? k).isSome

/-- Stores `v` for `k`, replacing the value stored before. -/
def insert (m : SortedMap α β) (k : α) (v : β) : SortedMap α β :=
  ⟨insertEntry k v m.entries, keysAscend_insertEntry k v m.ascending⟩

/-- Removes the entry for `k`. -/
def erase (m : SortedMap α β) (k : α) : SortedMap α β :=
  ⟨eraseEntry k m.entries, m.ascending.sublist (eraseEntry_sublist k m.entries)⟩

/-- The entries, keys ascending. -/
def toList (m : SortedMap α β) : List (α × β) := m.entries

/-- The keys, ascending. -/
def keys (m : SortedMap α β) : List α := m.entries.map Prod.fst

/-- The values in the order of their keys. -/
def values (m : SortedMap α β) : List β := m.entries.map Prod.snd

/-- The number of entries. -/
def size (m : SortedMap α β) : Nat := m.entries.length

/-- Whether there is no entry. -/
def isEmpty (m : SortedMap α β) : Bool := m.entries.isEmpty

/-- Keeps the entries that satisfy the test. -/
def filter (m : SortedMap α β) (keep : α → β → Bool) : SortedMap α β :=
  ⟨m.entries.filter fun e => keep e.1 e.2, m.ascending.sublist List.filter_sublist⟩

/-- Replaces the value of `k`, if it has one. -/
def modify (m : SortedMap α β) (k : α) (f : β → β) : SortedMap α β :=
  match m.get? k with
  | some v => m.insert k (f v)
  | none => m

/-- The map of a list of entries; of two entries for one key the later one counts. -/
def ofList (l : List (α × β)) : SortedMap α β := l.foldl (fun m e => m.insert e.1 e.2) empty

@[simp] theorem get?_empty (k : α) : (empty : SortedMap α β).get? k = none := rfl

theorem get?_insert [DecidableEq α] (m : SortedMap α β) (k : α) (v : β) (k' : α) :
    (m.insert k v).get? k' = if k' = k then some v else m.get? k' :=
  lookup_insertEntry k v m.entries k' m.ascending

theorem get?_erase [DecidableEq α] (m : SortedMap α β) (k k' : α) :
    (m.erase k).get? k' = if k' = k then none else m.get? k' :=
  lookup_eraseEntry k m.entries k' m.ascending

theorem get?_modify [DecidableEq α] (m : SortedMap α β) (k : α) (f : β → β) (k' : α) :
    (m.modify k f).get? k' = if k' = k then (m.get? k).map f else m.get? k' := by
  unfold modify
  split
  · next v hv =>
    rw [get?_insert, hv]
    rfl
  · next hv =>
    split
    · next hk =>
      rw [hk, hv]
      rfl
    · rfl

theorem get?_eq_some_iff {m : SortedMap α β} {k : α} {v : β} :
    m.get? k = some v ↔ (k, v) ∈ m.entries :=
  lookup_eq_some_iff m.ascending

theorem get?_filter (m : SortedMap α β) (keep : α → β → Bool) (k : α) :
    (m.filter keep).get? k = (m.get? k).filter (keep k) := by
  refine Option.ext fun v => ?_
  rw [get?_eq_some_iff, Option.filter_eq_some_iff, get?_eq_some_iff]
  exact List.mem_filter

theorem mem_keys_iff {m : SortedMap α β} {k : α} : k ∈ m.keys ↔ ∃ v, m.get? k = some v := by
  simp only [keys, List.mem_map, get?_eq_some_iff]
  exact ⟨fun ⟨⟨_, v⟩, he, hk⟩ => ⟨v, hk ▸ he⟩, fun ⟨v, hv⟩ => ⟨(k, v), hv, rfl⟩⟩

private theorem entries_eq_of_mem_iff {l l' : List (α × β)} (h : KeysAscend l)
    (h' : KeysAscend l') (hmem : ∀ e, e ∈ l ↔ e ∈ l') : l = l' := by
  induction l generalizing l' with
  | nil =>
    cases l' with
    | nil => rfl
    | cons head rest => exact absurd ((hmem head).2 List.mem_cons_self) (by simp)
  | cons head rest ih =>
    cases l' with
    | nil => exact absurd ((hmem head).1 List.mem_cons_self) (by simp)
    | cons head' rest' =>
      have hp := List.pairwise_cons.1 h
      have hp' := List.pairwise_cons.1 h'
      have hhead : head = head' := by
        rcases List.mem_cons.1 ((hmem head).1 List.mem_cons_self) with heq | hin
        · exact heq
        · rcases List.mem_cons.1 ((hmem head').2 List.mem_cons_self) with heq' | hin'
          · exact heq'.symm
          · have h1 := hp'.1 _ hin
            have h2 := hp.1 _ hin'
            exact absurd h1 (by simp [Ordered.before_asymm h2])
      subst hhead
      congr 1
      refine ih hp.2 hp'.2 fun e => ⟨fun he => ?_, fun he => ?_⟩
      · rcases List.mem_cons.1 ((hmem e).1 (List.mem_cons_of_mem _ he)) with rfl | h1
        · exact absurd (hp.1 _ he) (by simp [Ordered.before_irrefl])
        · exact h1
      · rcases List.mem_cons.1 ((hmem e).2 (List.mem_cons_of_mem _ he)) with rfl | h1
        · exact absurd (hp'.1 _ he) (by simp [Ordered.before_irrefl])
        · exact h1

/-- **Extensionality**: maps that answer every look-up alike are the same map. -/
theorem ext_get? {m m' : SortedMap α β} (h : ∀ k, m.get? k = m'.get? k) : m = m' := by
  have hentries : m.entries = m'.entries := by
    refine entries_eq_of_mem_iff m.ascending m'.ascending fun e => ?_
    rw [← get?_eq_some_iff (k := e.1) (v := e.2), ← get?_eq_some_iff (k := e.1) (v := e.2), h]
  cases m; cases m'; cases hentries; rfl

end SortedMap

end MethodFlow
