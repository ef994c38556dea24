import Mathlib.Data.List.Basic

/-!
# Folds whose steps may fail

Most of what is built here is built by folds: a graph by adding edges, a union
by adding the parts of the other graph, a run by passes.  A fact about a fold
is a fact about one step and its repetition, and the repetition is dealt with
here once for each kind of fact: what the steps keep, how they fail, that they
succeed, and where they make a statement true.
-/

namespace MethodFlow

/-- A computation in two steps succeeds when both do. -/
theorem bind_eq_ok {ε α β : Type} {x : Except ε α} {f : α → Except ε β} {y : β} :
    (x >>= f) = .ok y ↔ ∃ a, x = .ok a ∧ f a = .ok y := by
  cases x with
  | error e =>
      constructor
      · intro h
        cases h
      · rintro ⟨_, h, -⟩
        cases h
  | ok a =>
      constructor
      · intro h
        exact ⟨a, rfl, h⟩
      · rintro ⟨_, h, hf⟩
        cases h
        exact hf

/-- A computation in two steps fails when one of them does. -/
theorem bind_eq_error {ε α β : Type} {x : Except ε α} {f : α → Except ε β} {e : ε} :
    (x >>= f) = .error e ↔ x = .error e ∨ ∃ a, x = .ok a ∧ f a = .error e := by
  cases x with
  | error e' =>
      constructor
      · intro h
        cases h
        exact .inl rfl
      · rintro (h | ⟨_, h, -⟩)
        · cases h
          rfl
        · cases h
  | ok a =>
      constructor
      · intro h
        exact .inr ⟨a, rfl, h⟩
      · rintro (h | ⟨_, h, hf⟩)
        · cases h
        · cases h
          exact hf

/-- What every step of a fold keeps, the whole fold keeps. -/
theorem foldlM_keeps {ε α β : Type} {f : β → α → Except ε β} {P : β → Prop} {l : List α}
    (hstep : ∀ a ∈ l, ∀ b b', P b → f b a = .ok b' → P b') {b b' : β} (hb : P b)
    (h : l.foldlM f b = .ok b') : P b' := by
  induction l generalizing b with
  | nil =>
      cases h
      exact hb
  | cons a rest ih =>
      rw [List.foldlM_cons] at h
      obtain ⟨c, hc, hrest⟩ := bind_eq_ok.1 h
      exact ih (fun a ha => hstep a (List.mem_cons_of_mem _ ha))
        (hstep a List.mem_cons_self b c hb hc) hrest

/-- What one step sets and no other step of a fold touches is in the end as that
step has set it. -/
theorem foldlM_sets {ε α β γ : Type} {f : β → α → Except ε β} {V : β → γ}
    {v : γ} {Q : γ → Prop} {l : List α} {a : α} (hnodup : l.Nodup) (ha : a ∈ l)
    (hset : ∀ b b', V b = v → f b a = .ok b' → Q (V b'))
    (hother : ∀ c ∈ l, c ≠ a → ∀ b b', f b c = .ok b' → V b' = V b) {b b' : β}
    (hb : V b = v) (h : l.foldlM f b = .ok b') : Q (V b') := by
  induction l generalizing b with
  | nil => exact absurd ha List.not_mem_nil
  | cons c rest ih =>
      rw [List.foldlM_cons] at h
      obtain ⟨d, hd, hrest⟩ := bind_eq_ok.1 h
      obtain ⟨hc, hnodup⟩ := List.nodup_cons.1 hnodup
      by_cases hca : c = a
      · subst hca
        have hkept : V b' = V d := by
          refine foldlM_keeps (P := fun x => V x = V d) ?_ rfl hrest
          intro x hx y z hy hz
          have hne : x ≠ c := fun heq => hc (heq ▸ hx)
          exact (hother x (List.mem_cons_of_mem _ hx) hne y z hz).trans hy
        rw [hkept]
        exact hset b d hb hd
      · have hmem : a ∈ rest := (List.mem_cons.1 ha).resolve_left (Ne.symm hca)
        have hV : V d = v := (hother c List.mem_cons_self hca b d hd).trans hb
        exact ih hnodup hmem (fun x hx => hother x (List.mem_cons_of_mem _ hx)) hV hrest

/-- A fold fails only as one of its steps does. -/
theorem foldlM_fails {ε α β : Type} {f : β → α → Except ε β} {P : β → Prop} {Fails : ε → Prop}
    {l : List α} (hstep : ∀ a ∈ l, ∀ b b', P b → f b a = .ok b' → P b')
    (hfail : ∀ a ∈ l, ∀ b e, P b → f b a = .error e → Fails e) {b : β} {e : ε} (hb : P b)
    (h : l.foldlM f b = .error e) : Fails e := by
  induction l generalizing b with
  | nil => cases h
  | cons a rest ih =>
      rw [List.foldlM_cons] at h
      rcases bind_eq_error.1 h with hfirst | ⟨c, hc, hrest⟩
      · exact hfail a List.mem_cons_self b e hb hfirst
      · exact ih (fun a ha => hstep a (List.mem_cons_of_mem _ ha))
          (fun a ha => hfail a (List.mem_cons_of_mem _ ha))
          (hstep a List.mem_cons_self b c hb hc) hrest

/-- A fold none of whose steps fails does not fail. -/
theorem foldlM_ne_error {ε α β : Type} {f : β → α → Except ε β} {P : β → Prop} {l : List α}
    (hstep : ∀ a ∈ l, ∀ b b', P b → f b a = .ok b' → P b')
    (hfail : ∀ a ∈ l, ∀ b e, P b → f b a ≠ .error e) {b : β} {e : ε} (hb : P b) :
    l.foldlM f b ≠ .error e :=
  @foldlM_fails ε α β f P (fun _ => False) l hstep hfail b e hb

/-- Steps that succeed one by one succeed as a whole. -/
theorem foldlM_eq_ok {ε α β : Type} {f : β → α → Except ε β} {k : β → α → β} {I : β → Prop}
    {l : List α} (hstep : ∀ b, ∀ a ∈ l, I b → f b a = .ok (k b a) ∧ I (k b a)) {b : β}
    (hb : I b) : l.foldlM f b = .ok (l.foldl k b) ∧ I (l.foldl k b) := by
  induction l generalizing b with
  | nil => exact ⟨rfl, hb⟩
  | cons a rest ih =>
      obtain ⟨hok, hnext⟩ := hstep b a List.mem_cons_self hb
      rw [List.foldlM_cons, hok]
      exact ih (fun b c hc => hstep b c (List.mem_cons_of_mem a hc)) hnext

/-- A fold that makes a statement true at some elements and nowhere else makes
it true when there is such an element. -/
theorem foldl_iff {α β : Type} {f : β → α → β} {I Q : β → Prop} {P : α → Prop} {l : List α}
    (hinv : ∀ b, ∀ a ∈ l, I b → I (f b a))
    (hstep : ∀ b, ∀ a ∈ l, I b → (Q (f b a) ↔ Q b ∨ P a)) {b : β} (hb : I b) :
    Q (l.foldl f b) ↔ Q b ∨ ∃ a ∈ l, P a := by
  induction l generalizing b with
  | nil => simp
  | cons a rest ih =>
      have ha : a ∈ a :: rest := List.mem_cons_self
      have hrest := ih (fun b x hx => hinv b x (List.mem_cons_of_mem a hx))
        (fun b x hx => hstep b x (List.mem_cons_of_mem a hx)) (hinv b a ha hb)
      rw [List.foldl_cons, hrest, hstep b a ha hb, List.exists_mem_cons_iff, or_assoc]

/-- A fold that adds one element at a time has added those of the list. -/
theorem foldl_adds {α β : Type} {f : β → α → β} {Q : β → Prop} {a : α}
    (hstep : ∀ b c, Q (f b c) ↔ a = c ∨ Q b) (l : List α) {b : β} :
    Q (l.foldl f b) ↔ Q b ∨ a ∈ l := by
  have hfold := @foldl_iff α β f (fun _ => True) Q (a = ·) l (fun _ _ _ _ => trivial)
    (fun b c _ _ => (hstep b c).trans or_comm) b trivial
  rwa [exists_eq_right'] at hfold

/-- Two folds can be exchanged if their steps can. -/
theorem foldl_comm {α β : Type} {f : β → α → β} {l l' : List α}
    (hcomm : ∀ a ∈ l, ∀ a' ∈ l', ∀ b, f (f b a) a' = f (f b a') a) (b : β) :
    l'.foldl f (l.foldl f b) = l.foldl f (l'.foldl f b) := by
  have hone : ∀ l : List α, ∀ a', (∀ a ∈ l, ∀ b, f (f b a) a' = f (f b a') a) →
      ∀ b, f (l.foldl f b) a' = l.foldl f (f b a') := by
    intro l a' hl
    induction l with
    | nil => exact fun _ => rfl
    | cons a l ih =>
        intro b
        rw [List.foldl_cons, List.foldl_cons, ← hl a List.mem_cons_self b,
          ih fun a ha => hl a (List.mem_cons_of_mem _ ha)]
  induction l' generalizing b with
  | nil => rfl
  | cons a' l' ih =>
      rw [List.foldl_cons, List.foldl_cons, hone l a' fun a ha => hcomm a ha a' List.mem_cons_self,
        ih fun a ha c hc => hcomm a ha c (List.mem_cons_of_mem a' hc)]

/-- A fold whose steps may fail and make a statement true at some elements makes
it true when there is such an element. -/
theorem foldlM_iff {ε α β : Type} {f : β → α → Except ε β} {Q : β → Prop} {P : α → Prop}
    {l : List α} (hstep : ∀ a ∈ l, ∀ b b', f b a = .ok b' → (Q b' ↔ Q b ∨ P a)) {b b' : β}
    (h : l.foldlM f b = .ok b') : Q b' ↔ Q b ∨ ∃ a ∈ l, P a := by
  induction l generalizing b with
  | nil =>
      cases h
      simp
  | cons a rest ih =>
      rw [List.foldlM_cons] at h
      obtain ⟨c, hc, hrest⟩ := bind_eq_ok.1 h
      rw [ih (fun a ha => hstep a (List.mem_cons_of_mem _ ha)) hrest,
        hstep a List.mem_cons_self b c hc, List.exists_mem_cons_iff, or_assoc]

/-- A list is worked off element by element when each of them is. -/
theorem mapM_eq_ok_iff {ε α β : Type} {f : α → Except ε β} {l : List α} {l' : List β} :
    l.mapM f = .ok l' ↔ List.Forall₂ (fun a b => f a = .ok b) l l' := by
  induction l generalizing l' with
  | nil =>
      rw [List.mapM_nil]
      constructor
      · intro h
        cases h
        exact .nil
      · intro h
        cases h
        rfl
  | cons a rest ih =>
      rw [List.mapM_cons, bind_eq_ok]
      constructor
      · rintro ⟨b, hb, htail⟩
        obtain ⟨bs, hbs, hl'⟩ := bind_eq_ok.1 htail
        cases hl'
        exact .cons hb (ih.1 hbs)
      · intro h
        cases h with
        | cons hb hrest => exact ⟨_, hb, bind_eq_ok.2 ⟨_, ih.2 hrest, rfl⟩⟩

end MethodFlow
