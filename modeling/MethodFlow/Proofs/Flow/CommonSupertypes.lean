import MethodFlow.Proofs.Flow.Widening
import MethodFlow.Proofs.Hierarchy.Subtypes

/-!
# What two types widen to

Of the common supertypes of two types, each counting as its own, the closest
are those that no other common supertype lies below.  There can be several of
them, and the rule for two known types that meet is to widen only where they
decide for one: for the only one that is no interface, or, if all of them are
interfaces, for the only one there is (`Universe.Widens`).

The search takes two short cuts, a filter and the first type in the order of
the names that is no interface.  The short cuts change nothing: where one type
lies below the other, the other is the only closest common supertype.  The
first type is the only one as long as no two closest common supertypes are
both no interfaces, and exactly so far the search follows the rule
(`InferredType.merge_known_exact`).  Types that are only named count as no
interfaces, so that two of them are enough to break it
(`InferredType.merge_known_twoNamed`).

## Main results

* `Hierarchy.commonSupertype?_eq_some_iff`: what the search finds, in the words
  of declarations.
* `InferredType.merge_known_exact`: the merge follows the rule where at most one
  closest common supertype is no interface, and nowhere else.
-/

namespace MethodFlow

variable {u : Universe} {a b c m s t : TypeName}

/-! ## Closest common supertypes -/

namespace Universe

/-- `t` is a common supertype of `a` and `b`, and no other one lies below
it. -/
structure Closest (u : Universe) (a b t : TypeName) : Prop where
  left : u.Under a t
  right : u.Under b t
  lowest : ∀ {s}, u.Under a s → u.Under b s → u.Under s t → s = t

/-- A closest common supertype that is no interface. -/
def ClosestClass (u : Universe) (a b t : TypeName) : Prop :=
  u.Closest a b t ∧ ¬ u.DeclaresInterface t

/-- **The rule of widening.**  Two types widen to the only closest common
supertype that is no interface, or, if all are interfaces, to the only
closest common supertype. -/
def Widens (u : Universe) (a b c : TypeName) : Prop :=
  (u.ClosestClass a b c ∧ ∀ t, u.ClosestClass a b t → t = c) ∨
    (u.Closest a b c ∧ ∀ t, u.Closest a b t → u.DeclaresInterface t ∧ t = c)

/-- What the search takes: the first closest common supertype that is no
interface, or, if all are interfaces, the only one. -/
def Takes (u : Universe) (a b c : TypeName) : Prop :=
  (u.ClosestClass a b c ∧ ∀ t, u.ClosestClass a b t → Ordered.before t c = false) ∨
    (u.Closest a b c ∧ ∀ t, u.Closest a b t → u.DeclaresInterface t ∧ t = c)

theorem closest_comm : u.Closest a b t ↔ u.Closest b a t :=
  ⟨fun h => ⟨h.right, h.left, fun hb ha => h.lowest ha hb⟩,
    fun h => ⟨h.right, h.left, fun ha hb => h.lowest hb ha⟩⟩

/-- What is taken does not depend on which of the two types comes first. -/
theorem takes_comm : u.Takes a b c ↔ u.Takes b a c := by
  simp only [Takes, ClosestClass, closest_comm (a := a)]

/-- Where one type lies below the other, the other is the only closest common
supertype. -/
theorem closest_iff_of_under (hacyclic : u.Acyclic) (hab : u.Under a b) :
    u.Closest a b t ↔ t = b := by
  constructor
  · intro h
    exact (h.lowest hab .refl h.right).symm
  · rintro rfl
    exact ⟨hab, .refl, fun _ hbs hsb => hacyclic.antisymm hsb hbs⟩

/-- A single closest common supertype is taken, whether or not it is an
interface. -/
theorem takes_iff_of_single (hsingle : ∀ t, u.Closest a b t ↔ t = m) :
    u.Takes a b c ↔ m = c := by
  simp only [Takes, ClosestClass, hsingle]
  constructor
  · rintro (⟨⟨hc, -⟩, -⟩ | ⟨hc, -⟩)
    · exact hc.symm
    · exact hc.symm
  · rintro rfl
    by_cases hinterface : u.DeclaresInterface m
    · exact .inr ⟨rfl, fun t ht => ⟨ht ▸ hinterface, ht⟩⟩
    · exact .inl ⟨⟨rfl, hinterface⟩, fun t ht => ht.1 ▸ Ordered.before_irrefl t⟩

/-- The only closest class is the first one. -/
theorem Widens.takes (h : u.Widens a b c) : u.Takes a b c := by
  refine h.imp_left fun hclass => ⟨hclass.1, fun t ht => ?_⟩
  rw [hclass.2 t ht]
  exact Ordered.before_irrefl c

/-- Two closest classes leave the rule without a decision. -/
theorem not_widens_of_two (hs : u.ClosestClass a b s) (ht : u.ClosestClass a b t)
    (hne : s ≠ t) : ¬ u.Widens a b c := by
  rintro (⟨-, honly⟩ | ⟨-, honly⟩)
  · exact hne ((honly s hs).trans (honly t ht).symm)
  · exact hs.2 (honly s hs.1).1

/-- The supertypes of a type, itself among them. -/
theorem under_iff_mem : u.Under a t ↔ t ∈ a :: ((Hierarchy.ofUniverse u).ancestors a).toList := by
  rw [List.mem_cons, SortedSet.mem_toList, Hierarchy.mem_ancestors, Under,
    Relation.reflTransGen_iff_eq_or_transGen]
  constructor
  · rintro (hta | hchain)
    · exact .inl hta
    · by_cases hta : t = a
      · exact .inl hta
      · exact .inr ⟨hta, hchain⟩
  · rintro (hta | ⟨-, hchain⟩)
    · exact .inl hta
    · exact .inr hchain

instance (u : Universe) (a b t : TypeName) : Decidable (u.Closest a b t) :=
  decidable_of_iff
    (u.Under a t ∧ u.Under b t ∧
      ∀ s ∈ a :: ((Hierarchy.ofUniverse u).ancestors a).toList,
        u.Under b s → u.Under s t → s = t)
    ⟨fun h => ⟨h.1, h.2.1, fun has => h.2.2 _ (under_iff_mem.1 has)⟩,
      fun h => ⟨h.left, h.right, fun _ hs => h.lowest (under_iff_mem.2 hs)⟩⟩

instance (u : Universe) (a b t : TypeName) : Decidable (u.ClosestClass a b t) :=
  inferInstanceAs (Decidable (_ ∧ _))

end Universe

/-! ## The search -/

/-- In an ascending list, the first member that passes a test has none of the
others that pass it before itself. -/
theorem find?_eq_some_iff_of_ascends {α : Type} [Ordered α] {l : List α} {p : α → Bool} {x : α}
    (hl : Ascends l) :
    l.find? p = some x ↔ x ∈ l ∧ p x = true ∧ ∀ y ∈ l, p y = true → Ordered.before y x = false := by
  have hfirst : ∀ {x}, l.find? p = some x →
      x ∈ l ∧ p x = true ∧ ∀ y ∈ l, p y = true → y = x ∨ Ordered.before x y = true := by
    intro x hx
    obtain ⟨hpx, front, back, rfl, hfront⟩ := List.find?_eq_some_iff_append.1 hx
    refine ⟨by simp, hpx, fun y hy hpy => ?_⟩
    have hback := (List.pairwise_append.1 hl).2.1
    rcases List.mem_append.1 hy with hy | hy
    · have hfails := hfront y hy
      rw [hpy] at hfails
      cases hfails
    · exact (List.mem_cons.1 hy).imp_right fun hy => (List.pairwise_cons.1 hback).1 y hy
  constructor
  · intro hx
    obtain ⟨hmem, hpx, hlater⟩ := hfirst hx
    refine ⟨hmem, hpx, fun y hy hpy => ?_⟩
    rcases hlater y hy hpy with rfl | hbefore
    · exact Ordered.before_irrefl y
    · exact Ordered.before_asymm hbefore
  · rintro ⟨hmem, hpx, hnone⟩
    obtain ⟨z, hz⟩ := Option.isSome_iff_exists.1 (List.find?_isSome.2 ⟨x, hmem, hpx⟩)
    obtain ⟨hzmem, hpz, hlater⟩ := hfirst hz
    rcases hlater x hmem hpx with rfl | hbefore
    · exact hz
    · rw [hnone z hzmem hpz] at hbefore
      cases hbefore

namespace Hierarchy

/-- The closest common supertypes of two types neither of which lies below the
other, as the search lists them. -/
def closest (h : Hierarchy) (a b : TypeName) : List TypeName :=
  let shared := (h.ancestors a).toList.filter (h.ancestors b).contains
  shared.filter fun t => !shared.any fun other => other ≠ t && h.isSubtype other t

theorem ascends_closest (h : Hierarchy) (a b : TypeName) : Ascends (h.closest a b) :=
  ((h.ancestors a).ascending.filter _).filter _

theorem mem_closest (hab : ¬ u.Under a b) (hba : ¬ u.Under b a) :
    t ∈ (ofUniverse u).closest a b ↔ u.Closest a b t := by
  simp only [closest, List.mem_filter (p := fun t => !List.any _ _), mem_shared hab hba,
    Bool.not_eq_true', List.any_eq_false, Bool.and_eq_true, decide_eq_true_eq, isSubtype_iff,
    not_and]
  constructor
  · rintro ⟨⟨hat, hbt⟩, hlowest⟩
    exact ⟨hat, hbt, fun has hbs hst => by_contra fun hne => hlowest _ ⟨has, hbs⟩ hne hst⟩
  · intro h
    exact ⟨⟨h.left, h.right⟩, fun s hs hne hst => hne (h.lowest hs.1 hs.2 hst)⟩

/-- What is taken from a list: the first that is no interface, or the only
one. -/
def pick (h : Hierarchy) (l : List TypeName) : Option TypeName :=
  match l.find? fun t => !h.isInterface t with
  | some t => some t
  | none =>
    match l with
    | [t] => some t
    | _ => none

theorem commonSupertype?_eq (h : Hierarchy) (a b : TypeName) :
    h.commonSupertype? a b =
      if h.isSubtype a b then some b
      else if h.isSubtype b a then some a
      else h.pick (h.closest a b) := rfl

theorem pick_eq_some_iff {h : Hierarchy} {l : List TypeName} (hl : Ascends l) :
    h.pick l = some c ↔
      ((c ∈ l ∧ h.isInterface c = false) ∧
          ∀ t ∈ l, h.isInterface t = false → Ordered.before t c = false) ∨
        (c ∈ l ∧ ∀ t ∈ l, h.isInterface t = true ∧ t = c) := by
  unfold pick
  split
  · next t ht =>
    -- Some member is no interface, so that the second alternative is excluded.
    obtain ⟨htmem, htclass, -⟩ := (find?_eq_some_iff_of_ascends hl).1 ht
    rw [← ht, find?_eq_some_iff_of_ascends hl, ← and_assoc]
    simp only [Bool.not_eq_true'] at htclass ⊢
    refine (or_iff_left fun hall => ?_).symm
    rw [(hall.2 t htmem).1] at htclass
    cases htclass
  · next hnone =>
    have hinterfaces : ∀ t ∈ l, h.isInterface t = true := by
      simpa using List.find?_eq_none.1 hnone
    rw [or_iff_right fun hclass => by simp [hinterfaces c hclass.1.1] at hclass]
    constructor
    · intro hc
      split at hc
      · next t =>
        cases hc
        exact ⟨List.mem_singleton_self c,
          fun t ht => ⟨hinterfaces t ht, List.mem_singleton.1 ht⟩⟩
      · cases hc
    · rintro ⟨hc, honly⟩
      have hnodup : l.Nodup := hl.imp Ordered.ne_of_before
      have hsingle : l = [c] := by
        refine List.perm_singleton.1 ((List.perm_ext_iff_of_nodup hnodup ?_).2 fun t => ?_)
        · exact List.nodup_singleton c
        · rw [List.mem_singleton]
          exact ⟨fun ht => (honly t ht).2, fun ht => ht ▸ hc⟩
      rw [hsingle]

/-- **What the search finds**: the first closest common supertype that is no
interface, or the only one. -/
theorem commonSupertype?_eq_some_iff (hacyclic : u.Acyclic) :
    (ofUniverse u).commonSupertype? a b = some c ↔ u.Takes a b c := by
  rw [commonSupertype?_eq]
  by_cases hab : u.Under a b
  · rw [if_pos (isSubtype_iff.2 hab), Option.some_inj]
    exact (Universe.takes_iff_of_single fun t => Universe.closest_iff_of_under hacyclic hab).symm
  rw [if_neg (mt isSubtype_iff.1 hab)]
  by_cases hba : u.Under b a
  · rw [if_pos (isSubtype_iff.2 hba), Option.some_inj, Universe.takes_comm]
    exact (Universe.takes_iff_of_single fun t => Universe.closest_iff_of_under hacyclic hba).symm
  · have hclass : ∀ t, (ofUniverse u).isInterface t = false ↔ ¬ u.DeclaresInterface t := by
      intro t
      rw [← isInterface_iff, Bool.not_eq_true]
    rw [if_neg (mt isSubtype_iff.1 hba), pick_eq_some_iff (ascends_closest _ a b)]
    simp only [mem_closest hab hba, hclass, isInterface_iff, Universe.Takes,
      Universe.ClosestClass, and_imp]

/-- Where one closest common supertype is no interface, something is taken. -/
theorem exists_takes (hacyclic : u.Acyclic) (hs : u.ClosestClass a b s) :
    ∃ c, u.Takes a b c := by
  simp only [← commonSupertype?_eq_some_iff hacyclic, commonSupertype?_eq]
  by_cases hab : u.Under a b
  · exact ⟨b, if_pos (isSubtype_iff.2 hab)⟩
  rw [if_neg (mt isSubtype_iff.1 hab)]
  by_cases hba : u.Under b a
  · exact ⟨a, if_pos (isSubtype_iff.2 hba)⟩
  · have hfound : (((ofUniverse u).closest a b).find? fun t =>
        !(ofUniverse u).isInterface t).isSome = true := by
      refine List.find?_isSome.2 ⟨s, (mem_closest hab hba).2 hs.1, ?_⟩
      rw [Bool.not_eq_true', ← Bool.not_eq_true, isInterface_iff]
      exact hs.2
    obtain ⟨c, hc⟩ := Option.isSome_iff_exists.1 hfound
    refine ⟨c, ?_⟩
    rw [if_neg (mt isSubtype_iff.1 hba)]
    unfold pick
    rw [hc]

end Hierarchy

/-- Circles and squares are shapes and can be drawn; discs and rings can be
drawn and moved. -/
def drawings : Universe :=
  .ofList
    [⟨"IDraw", .interfaceType, none, [], []⟩, ⟨"IMove", .interfaceType, none, [], []⟩,
      ⟨"Shape", .classType, none, [], []⟩, ⟨"Circle", .classType, some "Shape", ["IDraw"], []⟩,
      ⟨"Square", .classType, some "Shape", ["IDraw"], []⟩,
      ⟨"Disc", .classType, none, ["IDraw", "IMove"], []⟩,
      ⟨"Ring", .classType, none, ["IDraw", "IMove"], []⟩]

theorem acyclic_drawings : drawings.Acyclic :=
  Universe.acyclic_of_rank
    (fun t => if t = "Shape" ∨ t = "IDraw" ∨ t = "IMove" then 0 else 1) (by decide +kernel)

/-! ## Merges of known types -/

namespace InferredType

/-- Two known types, also when they are the same, merge into their closest
common supertype. -/
theorem merge_known (h : Hierarchy) (a b : TypeName) :
    merge h (.known a) (.known b) =
      match h.commonSupertype? a b with
      | some c => .known c
      | none => .varying := by
  unfold merge
  by_cases hab : a = b
  · subst hab
    rw [if_pos rfl, Hierarchy.commonSupertype?_eq, if_pos (Hierarchy.isSubtype_refl h a)]
  · exact if_neg fun heq => hab (known.inj heq)

theorem merge_known_eq_known_iff (hacyclic : u.Acyclic) :
    merge (.ofUniverse u) (.known a) (.known b) = .known c ↔ u.Takes a b c := by
  rw [merge_known, ← Hierarchy.commonSupertype?_eq_some_iff hacyclic]
  split
  · next m hm => rw [known.injEq, hm, Option.some_inj]
  · next hnone => simp [hnone]

theorem merge_known_eq_varying_iff (hacyclic : u.Acyclic) :
    merge (.ofUniverse u) (.known a) (.known b) = .varying ↔ ∀ c, ¬ u.Takes a b c := by
  simp only [merge_known, ← Hierarchy.commonSupertype?_eq_some_iff hacyclic]
  split
  · next m hm => simp [hm]
  · next hnone => simp [hnone]

/-- **The merge of two known types follows the rule of widening exactly where
the rule is not put to the test.**  In a universe without cycles, two types
merge into the type that they widen to, and vary if they widen to none, if and
only if no two of their closest common supertypes are both no interfaces. -/
theorem merge_known_exact (hacyclic : u.Acyclic) (a b : TypeName) :
    ((∀ c, merge (.ofUniverse u) (.known a) (.known b) = .known c ↔ u.Widens a b c) ∧
        ((∀ c, ¬ u.Widens a b c) →
          merge (.ofUniverse u) (.known a) (.known b) = .varying)) ↔
      ∀ s t, u.ClosestClass a b s → u.ClosestClass a b t → s = t := by
  simp only [merge_known_eq_known_iff hacyclic, merge_known_eq_varying_iff hacyclic]
  constructor
  · rintro ⟨-, hvaries⟩ s t hs ht
    by_contra hne
    obtain ⟨c, hc⟩ := Hierarchy.exists_takes hacyclic hs
    exact hvaries (fun _ => Universe.not_widens_of_two hs ht hne) c hc
  · intro hone
    have hsame : ∀ c, u.Takes a b c ↔ u.Widens a b c := fun c =>
      ⟨fun h => h.imp_left fun hclass => ⟨hclass.1, fun t ht => hone t c ht hclass.1⟩,
        Universe.Widens.takes⟩
    exact ⟨hsame, fun hnone c hc => hnone c ((hsame c).1 hc)⟩

/-- A class decides over an interface, and two interfaces do not decide. -/
theorem merge_known_exact_drawings :
    (drawings.Closest "Circle" "Square" "Shape" ∧ drawings.Closest "Circle" "Square" "IDraw" ∧
        merge (.ofUniverse drawings) (.known "Circle") (.known "Square") = .known "Shape" ∧
        drawings.Widens "Circle" "Square" "Shape") ∧
      drawings.Closest "Disc" "Ring" "IDraw" ∧ drawings.Closest "Disc" "Ring" "IMove" ∧
        merge (.ofUniverse drawings) (.known "Disc") (.known "Ring") = .varying ∧
        ∀ c, ¬ drawings.Widens "Disc" "Ring" c := by
  have hshapes : ∀ s t, drawings.ClosestClass "Circle" "Square" s →
      drawings.ClosestClass "Circle" "Square" t → s = t := by
    have hlisted : ∀ t ∈ "Circle" :: ((Hierarchy.ofUniverse drawings).ancestors "Circle").toList,
        drawings.ClosestClass "Circle" "Square" t → t = "Shape" := by decide +kernel
    intro s t hs ht
    rw [hlisted s (Universe.under_iff_mem.1 hs.1.left) hs,
      hlisted t (Universe.under_iff_mem.1 ht.1.left) ht]
  have hround : ∀ s t, drawings.ClosestClass "Disc" "Ring" s →
      drawings.ClosestClass "Disc" "Ring" t → s = t := by
    have hlisted : ∀ t ∈ "Disc" :: ((Hierarchy.ofUniverse drawings).ancestors "Disc").toList,
        ¬ drawings.ClosestClass "Disc" "Ring" t := by decide +kernel
    intro s t hs
    exact absurd hs (hlisted s (Universe.under_iff_mem.1 hs.1.left))
  have hmerged : merge (.ofUniverse drawings) (.known "Circle") (.known "Square") =
      .known "Shape" := by decide +kernel
  have hvaries : merge (.ofUniverse drawings) (.known "Disc") (.known "Ring") = .varying := by
    decide +kernel
  refine ⟨⟨by decide +kernel, by decide +kernel, hmerged, ?_⟩, by decide +kernel,
    by decide +kernel, hvaries, fun c hc => ?_⟩
  · exact (((merge_known_exact acyclic_drawings "Circle" "Square").2 hshapes).1 "Shape").1 hmerged
  · have hknown := (((merge_known_exact acyclic_drawings "Disc" "Ring").2 hround).1 c).2 hc
    rw [hvaries] at hknown
    cases hknown

/-- Two classes that name the same two parents, of which nothing else is
known. -/
def twoNamed : Universe :=
  .ofList
    [⟨"Circle", .classType, none, ["IDraw", "IMove"], []⟩,
      ⟨"Square", .classType, none, ["IDraw", "IMove"], []⟩]

/-- **Two parents that are only named break the rule**: neither is known to be
an interface, the first of them is taken, and the rule decides for none. -/
theorem merge_known_twoNamed :
    twoNamed.Acyclic ∧ twoNamed.ClosestClass "Circle" "Square" "IDraw" ∧
      twoNamed.ClosestClass "Circle" "Square" "IMove" ∧
      (∀ c, ¬ twoNamed.Widens "Circle" "Square" c) ∧
      merge (.ofUniverse twoNamed) (.known "Circle") (.known "Square") = .known "IDraw" := by
  have hdraw : twoNamed.ClosestClass "Circle" "Square" "IDraw" := by decide +kernel
  have hmove : twoNamed.ClosestClass "Circle" "Square" "IMove" := by decide +kernel
  refine ⟨?_, hdraw, hmove, fun c => ?_, by decide +kernel⟩
  · exact Universe.acyclic_of_rank (fun t => if t = "Circle" ∨ t = "Square" then 1 else 0)
      (by decide +kernel)
  · exact Universe.not_widens_of_two hdraw hmove (by decide)

end InferredType

end MethodFlow
