import Mathlib.Data.List.Infix
import Mathlib.Data.List.TakeWhile
import MethodFlow.Model.MethodRef

/-!
# Reading a method reference back from its text

The written form joins three parts without quoting them, so two references
may share one text.  Reading gives one of them back: the first `(` opens the
signature, and the last `::` before it ends the declaring type.  A reference
survives the trip exactly when its parts respect these two cuts, which is
`MethodRef.Legible`.  Reading never gives anything else, so a second trip
changes nothing.

The delicate place is the border between type and name.  A type may end in a
colon, because the last of several overlapping `::` is taken; a name behind a
type must not begin with one.

## Main results

* `MethodRef.cutLastSeparator_eq_some_iff`: what the last separator is.
* `MethodRef.parse_render_exact`: exactly the legible references are read
  back, and reading gives legible references only.
-/

namespace MethodFlow

namespace MethodRef

/-- The parts of the reference respect the places where its text is cut. -/
structure Legible (m : MethodRef) : Prop where
  signature_opens : m.signature = "" ∨ ['('] <+: m.signature.toList
  type_unopened : '(' ∉ m.declaringType.toList
  name_unopened : '(' ∉ m.name.toList
  name_whole : ¬ [':', ':'] <:+: m.name.toList
  name_apart : m.declaringType ≠ "" → ¬ [':'] <+: m.name.toList

theorem legible_iff {m : MethodRef} :
    m.Legible ↔ (m.signature = "" ∨ ['('] <+: m.signature.toList) ∧
      '(' ∉ m.declaringType.toList ∧ '(' ∉ m.name.toList ∧
      ¬ [':', ':'] <:+: m.name.toList ∧
      (m.declaringType ≠ "" → ¬ [':'] <+: m.name.toList) :=
  ⟨fun ⟨h₁, h₂, h₃, h₄, h₅⟩ => ⟨h₁, h₂, h₃, h₄, h₅⟩,
    fun ⟨h₁, h₂, h₃, h₄, h₅⟩ => ⟨h₁, h₂, h₃, h₄, h₅⟩⟩

instance (m : MethodRef) : Decidable m.Legible := decidable_of_iff' _ legible_iff

/-! ## The last separator -/

variable {l front back head signature : List Char} {c : Char}

theorem separator_cons :
    [':', ':'] <:+: c :: l ↔ (c = ':' ∧ [':'] <+: l) ∨ [':', ':'] <:+: l := by
  rw [List.infix_cons_iff, List.cons_prefix_cons, eq_comm]

/-- What one more character in front changes: it joins the front of the cut
there is, or makes the first separator. -/
theorem cutLastSeparator_cons (c : Char) (l : List Char) :
    cutLastSeparator (c :: l) =
      match cutLastSeparator l with
      | some (front, back) => some (c :: front, back)
      | none => if c = ':' ∧ [':'] <+: l then some ([], l.tail) else none := by
  conv_lhs => unfold cutLastSeparator
  cases cutLastSeparator l with
  | some cut => rfl
  | none =>
      simp only
      split
      · simp
      · next hother =>
        rw [if_neg]
        rintro ⟨rfl, back, rfl⟩
        exact hother back rfl rfl

theorem cutLastSeparator_eq_none_iff : cutLastSeparator l = none ↔ ¬ [':', ':'] <:+: l := by
  induction l with
  | nil => simp [cutLastSeparator]
  | cons c rest ih =>
      rw [cutLastSeparator_cons, separator_cons]
      cases hrest : cutLastSeparator rest with
      | none =>
          have hnone := ih.1 hrest
          by_cases hc : c = ':' ∧ [':'] <+: rest <;> simp [hc, hnone]
      | some cut =>
          have hsome : [':', ':'] <:+: rest := by
            by_contra hno
            rw [ih.2 hno] at hrest
            cases hrest
          simp [hsome]

/-- **The last separator**: behind the cut no separator follows, not even one
that shares a colon with it. -/
theorem cutLastSeparator_eq_some_iff :
    cutLastSeparator l = some (front, back) ↔
      l = front ++ ':' :: ':' :: back ∧ ¬ [':', ':'] <:+: ':' :: back := by
  induction l generalizing front with
  | nil => simp [cutLastSeparator]
  | cons c rest ih =>
      rw [cutLastSeparator_cons]
      cases hrest : cutLastSeparator rest with
      | none =>
          have hnone := cutLastSeparator_eq_none_iff.1 hrest
          have hfront : ∀ f, rest ≠ f ++ ':' :: ':' :: back :=
            fun f heq => hnone ⟨f, back, by simp [heq]⟩
          cases front with
          | cons f front => simp [hfront]
          | nil =>
              constructor
              · intro h
                simp only at h
                split at h
                · next hc =>
                  obtain ⟨rfl, tail, rfl⟩ := hc
                  obtain rfl : tail = back := by simpa using h
                  exact ⟨rfl, hnone⟩
                · cases h
              · rintro ⟨heq, -⟩
                obtain ⟨rfl, rfl⟩ := List.cons.inj heq
                simp
      | some cut =>
          obtain ⟨f, b⟩ := cut
          cases front with
          | nil =>
              -- The separator found in the rest would stand behind this one.
              have hinner : [':', ':'] <:+: rest := by
                by_contra hno
                rw [cutLastSeparator_eq_none_iff.2 hno] at hrest
                cases hrest
              constructor
              · intro h
                cases h
              · rintro ⟨heq, hlast⟩
                obtain ⟨rfl, rfl⟩ := List.cons.inj heq
                exact absurd hinner hlast
          | cons d front =>
              have hih := @ih front
              rw [hrest] at hih
              simp only [Option.some.injEq, Prod.mk.injEq, List.cons.injEq,
                List.cons_append] at hih ⊢
              rw [and_assoc, hih, and_assoc]

/-! ## The two cuts of a text -/

/-- A signature that is known to open at the first `(` is what the first cut
leaves. -/
theorem takeWhile_dropWhile_append (hhead : '(' ∉ head)
    (hsig : signature = [] ∨ ['('] <+: signature) :
    (head ++ signature).takeWhile (fun c => decide (c ≠ '(')) = head ∧
      (head ++ signature).dropWhile (fun c => decide (c ≠ '(')) = signature := by
  have hall : ∀ c ∈ head, decide (c ≠ '(') = true := by
    intro c hc
    rw [decide_eq_true_eq]
    rintro rfl
    exact hhead hc
  have htake : signature.takeWhile (fun c => decide (c ≠ '(')) = [] := by
    rcases hsig with rfl | ⟨rest, rfl⟩ <;> simp
  have hdrop : signature.dropWhile (fun c => decide (c ≠ '(')) = signature := by
    rcases hsig with rfl | ⟨rest, rfl⟩ <;> simp
  constructor
  · rw [List.takeWhile_append_of_pos hall, htake, List.append_nil]
  · rw [List.dropWhile_append_of_pos hall, hdrop]

theorem parse_ofList_of_whole (hhead : '(' ∉ head) (hsig : signature = [] ∨ ['('] <+: signature)
    (hcut : cutLastSeparator head = none) :
    parse (String.ofList (head ++ signature)) =
      ⟨"", String.ofList head, String.ofList signature⟩ := by
  obtain ⟨htake, hdrop⟩ := takeWhile_dropWhile_append hhead hsig
  simp only [parse, String.toList_ofList, htake, hdrop, hcut]

theorem parse_ofList_of_cut {type name : List Char} (hhead : '(' ∉ head)
    (hsig : signature = [] ∨ ['('] <+: signature)
    (hcut : cutLastSeparator head = some (type, name)) :
    parse (String.ofList (head ++ signature)) =
      ⟨String.ofList type, String.ofList name, String.ofList signature⟩ := by
  obtain ⟨htake, hdrop⟩ := takeWhile_dropWhile_append hhead hsig
  simp only [parse, String.toList_ofList, htake, hdrop, hcut]

/-- Every text is a head without `(` and a signature. -/
theorem exists_head_signature (text : String) :
    ∃ head signature, '(' ∉ head ∧ (signature = [] ∨ ['('] <+: signature) ∧
      text = String.ofList (head ++ signature) := by
  refine ⟨text.toList.takeWhile (fun c => decide (c ≠ '(')),
    text.toList.dropWhile (fun c => decide (c ≠ '(')), ?_, ?_, ?_⟩
  · intro hmem
    simpa using List.mem_takeWhile_imp hmem
  · cases hdrop : text.toList.dropWhile (fun c => decide (c ≠ '(')) with
    | nil => exact .inl rfl
    | cons c rest =>
        have hopen : ¬ decide (c ≠ '(') = true := by
          have hhead := List.head?_dropWhile_not (fun c => decide (c ≠ '(')) text.toList
          rw [hdrop] at hhead
          simpa using hhead
        simp only [ne_eq, decide_not, Bool.not_eq_eq_eq_not, Bool.not_true,
          decide_eq_false_iff_not, Decidable.not_not] at hopen
        exact .inr ⟨rest, by rw [hopen]; rfl⟩
  · rw [List.takeWhile_append_dropWhile, String.ofList_toList]

theorem legible_parse (text : String) : (parse text).Legible := by
  obtain ⟨head, signature, hhead, hsig, rfl⟩ := exists_head_signature text
  have hopens : String.ofList signature = "" ∨ ['('] <+: (String.ofList signature).toList := by
    rw [String.toList_ofList]
    exact hsig.imp (fun h => by rw [h]) id
  cases hcut : cutLastSeparator head with
  | none =>
      rw [parse_ofList_of_whole hhead hsig hcut]
      have hwhole := cutLastSeparator_eq_none_iff.1 hcut
      exact ⟨hopens, by simp, by simpa using hhead, by simpa using hwhole, fun h => absurd rfl h⟩
  | some cut =>
      obtain ⟨type, name⟩ := cut
      rw [parse_ofList_of_cut hhead hsig hcut]
      obtain ⟨rfl, hlast⟩ := cutLastSeparator_eq_some_iff.1 hcut
      rw [separator_cons] at hlast
      simp only [true_and, not_or] at hlast
      simp only [List.mem_append, List.mem_cons, not_or] at hhead
      exact ⟨hopens, by simpa using hhead.1, by simpa using hhead.2.2.2,
        by simpa using hlast.2, fun _ => by simpa using hlast.1⟩

theorem parse_render {m : MethodRef} (hm : m.Legible) : parse m.render = m := by
  obtain ⟨type, name, signature⟩ := m
  obtain ⟨hopens, htype, hname, hwhole, hapart⟩ := hm
  have hsig : signature.toList = [] ∨ ['('] <+: signature.toList :=
    hopens.imp String.toList_eq_nil_iff.2 id
  unfold render
  split
  · next hempty =>
    have hcut := cutLastSeparator_eq_none_iff.2 hwhole
    have htext : name ++ signature = String.ofList (name.toList ++ signature.toList) := by
      simp
    simp only at hempty htext hcut
    rw [htext, parse_ofList_of_whole hname hsig hcut, hempty]
    simp
  · next hnonempty =>
    have hcut : cutLastSeparator (type.toList ++ ':' :: ':' :: name.toList) =
        some (type.toList, name.toList) := by
      rw [cutLastSeparator_eq_some_iff, separator_cons]
      exact ⟨rfl, by rintro (⟨-, h⟩ | h); exacts [hapart hnonempty h, hwhole h]⟩
    have hhead : '(' ∉ type.toList ++ ':' :: ':' :: name.toList := by
      simp only [List.mem_append, List.mem_cons, not_or]
      exact ⟨htype, by decide, by decide, hname⟩
    have htext : type ++ "::" ++ name ++ signature =
        String.ofList (type.toList ++ ':' :: ':' :: name.toList ++ signature.toList) := by
      apply String.toList_injective
      simp
    simp only at htext ⊢
    rw [htext, parse_ofList_of_cut hhead hsig hcut]
    simp

/-- **Written references are read back** exactly when they are legible.
Whatever a text says, what is read from it is legible, so writing it and
reading it again changes nothing. -/
theorem parse_render_exact :
    (∀ m : MethodRef, parse m.render = m ↔ m.Legible) ∧
      ∀ text, (parse text).Legible ∧ parse (parse text).render = parse text :=
  ⟨fun m => ⟨fun h => h ▸ legible_parse m.render, parse_render⟩,
    fun text => ⟨legible_parse text, parse_render (legible_parse text)⟩⟩

/-- A colon may end the type, but may not begin the name behind it. -/
example : Legible ⟨"A:", "B", "()"⟩ ∧ ¬ Legible ⟨"A", ":B", "()"⟩ ∧ Legible ⟨"", ":B", "()"⟩ := by
  decide

end MethodRef

end MethodFlow
