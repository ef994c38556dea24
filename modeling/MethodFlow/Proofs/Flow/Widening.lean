import Mathlib.Algebra.Order.BigOperators.Group.Finset
import MethodFlow.Flow.Types
import MethodFlow.Proofs.Flow.Ascent
import MethodFlow.Proofs.Hierarchy.Closure

/-!
# Widening of types

What is known of a value widens from null over a type and its supertypes to
a type that varies.  Facts about variables are ordered variable by variable,
and a variable of which nothing is known yet counts as lowest.

Two types may have several common supertypes none of which is below the
others, and then the choice that widening makes is not the least fact above
both.  In a universe where this never happens (`Universe.Unambiguous`) it is,
for types and for facts, and every fact can be widened only so often.

## Main results

* `Hierarchy.commonSupertype?_spec`: the closest common supertype is the least
  one.
* `InferredType.merge_le_iff`, `TypeFacts.join_le_iff`: merges and joins are
  least upper bounds.
* `TypeFacts.totalRoom_lt`: every widening uses up some of a finite room.
-/

namespace MethodFlow

variable {u : Universe}

/-! ## Least common supertypes -/

namespace Universe

/-- `m` is a common supertype of `a` and `b` and below all others. -/
structure LeastAbove (u : Universe) (a b m : TypeName) : Prop where
  left : u.Under a m
  right : u.Under b m
  least : ∀ {t}, u.Under a t → u.Under b t → u.Under m t

/-- Types with a common supertype have a least one. -/
def Unambiguous (u : Universe) : Prop :=
  ∀ a b t, u.Under a t → u.Under b t → ∃ m, u.LeastAbove a b m

/-- Where no type has two parents, the supertypes of a type form a chain, and
the first that is also above the other type is the least. -/
theorem unambiguous_of_single_parent (h : ∀ {c p q}, u.Declares c p → u.Declares c q → p = q) :
    u.Unambiguous := by
  intro a b t hat hbt
  induction hat using Relation.ReflTransGen.head_induction_on with
  | refl => exact ⟨t, .refl, hbt, fun hup _ => hup⟩
  | @head a parent hparent _ ih =>
      by_cases hba : u.Under b a
      · exact ⟨a, .refl, hba, fun hup _ => hup⟩
      · -- Every supertype of `a` but itself lies above its only parent.
        obtain ⟨m, hm⟩ := ih
        refine ⟨m, .head hparent hm.left, hm.right, fun hup hbs => ?_⟩
        rcases Relation.ReflTransGen.cases_head hup with rfl | ⟨q, hq, hqs⟩
        · exact absurd hbs hba
        · exact hm.least (h hparent hq ▸ hqs) hbs

end Universe

namespace Hierarchy

variable {a b m t : TypeName}

/-- The common supertypes of two types neither of which is below the
other. -/
theorem mem_shared (hab : ¬ u.Under a b) (hba : ¬ u.Under b a) :
    t ∈ ((ofUniverse u).ancestors a).toList.filter ((ofUniverse u).ancestors b).contains ↔
      u.Under a t ∧ u.Under b t := by
  rw [List.mem_filter, SortedSet.mem_toList, SortedSet.contains_iff_mem, mem_ancestors,
    mem_ancestors]
  constructor
  · rintro ⟨⟨-, hat⟩, -, hbt⟩
    exact ⟨hat.to_reflTransGen, hbt.to_reflTransGen⟩
  · rintro ⟨hat, hbt⟩
    have hta : t ≠ a := fun heq => hba (heq ▸ hbt)
    have htb : t ≠ b := fun heq => hab (heq ▸ hat)
    exact ⟨⟨hta, (Relation.reflTransGen_iff_eq_or_transGen.1 hat).resolve_left hta⟩, htb,
      (Relation.reflTransGen_iff_eq_or_transGen.1 hbt).resolve_left htb⟩

/-- A least type is the only minimal one. -/
private theorem minimal_eq (hacyclic : u.Acyclic) {shared : List TypeName}
    (hnodup : shared.Nodup) (hm : m ∈ shared) (hleast : ∀ t ∈ shared, u.Under m t) :
    (shared.filter fun t =>
      !shared.any fun other => other ≠ t && (ofUniverse u).isSubtype other t) = [m] := by
  have hmem : ∀ t, t ∈ (shared.filter fun t =>
      !shared.any fun other => other ≠ t && (ofUniverse u).isSubtype other t) ↔ t = m := by
    intro t
    simp only [List.mem_filter, Bool.not_eq_true', List.any_eq_false, Bool.and_eq_true,
      decide_eq_true_eq, isSubtype_iff, not_and]
    constructor
    · rintro ⟨ht, hminimal⟩
      by_contra hne
      exact hminimal m hm (Ne.symm hne) (hleast t ht)
    · rintro rfl
      exact ⟨hm, fun other hother hne hunder =>
        hne (hacyclic.antisymm hunder (hleast other hother))⟩
  have hperm : (shared.filter fun t =>
      !shared.any fun other => other ≠ t && (ofUniverse u).isSubtype other t).Perm [m] :=
    (List.perm_ext_iff_of_nodup (hnodup.filter _) (List.nodup_singleton m)).2 fun t => by
      rw [hmem, List.mem_singleton]
  exact List.perm_singleton.1 hperm

/-- The closest common supertype is the least one, and it is missing only if
there is no common supertype at all. -/
theorem commonSupertype?_spec (hacyclic : u.Acyclic) (hunamb : u.Unambiguous) (a b : TypeName) :
    match (ofUniverse u).commonSupertype? a b with
    | some m => u.LeastAbove a b m
    | none => ∀ t, ¬ (u.Under a t ∧ u.Under b t) := by
  unfold commonSupertype?
  by_cases hab : u.Under a b
  · rw [if_pos (isSubtype_iff.2 hab)]
    exact ⟨hab, .refl, fun _ hbt => hbt⟩
  by_cases hba : u.Under b a
  · rw [if_neg (mt isSubtype_iff.1 hab), if_pos (isSubtype_iff.2 hba)]
    exact ⟨.refl, hba, fun hat _ => hat⟩
  rw [if_neg (mt isSubtype_iff.1 hab), if_neg (mt isSubtype_iff.1 hba)]
  by_cases hcommon : ∃ t, u.Under a t ∧ u.Under b t
  · -- With a least common supertype there is one minimal type, and it does not
    -- matter whether it is an interface.
    obtain ⟨t, hat, hbt⟩ := hcommon
    obtain ⟨m, hm⟩ := hunamb a b t hat hbt
    have hminimal := minimal_eq hacyclic
      (((ofUniverse u).ancestors a).nodup_toList.filter ((ofUniverse u).ancestors b).contains)
      ((mem_shared hab hba).2 ⟨hm.left, hm.right⟩)
      (fun s hs => hm.least ((mem_shared hab hba).1 hs).1 ((mem_shared hab hba).1 hs).2)
    simp only [hminimal]
    by_cases hinterface : (ofUniverse u).isInterface m = true
    · simpa [hinterface] using hm
    · simpa [hinterface] using hm
  · have hempty : ((ofUniverse u).ancestors a).toList.filter
        ((ofUniverse u).ancestors b).contains = [] := by
      refine List.eq_nil_iff_forall_not_mem.2 fun t ht => hcommon ⟨t, ?_⟩
      exact (mem_shared hab hba).1 ht
    simp only [hempty]
    exact fun t ht => hcommon ⟨t, ht⟩

end Hierarchy

/-! ## The order of inferred types -/

namespace InferredType

variable {a b c : InferredType}

/-- The second is the first, or wider. -/
def Le (u : Universe) : InferredType → InferredType → Prop
  | .null, _ => True
  | _, .varying => True
  | .known s, .known t => u.Under s t
  | _, _ => False

theorem Le.refl (u : Universe) (a : InferredType) : a.Le u a := by
  cases a with
  | null => trivial
  | known t => exact Relation.ReflTransGen.refl
  | varying => trivial

/-- What is as wide as a type that varies is as wide as anything. -/
theorem Le.of_varying (h : Le u .varying c) (a : InferredType) : a.Le u c := by
  cases c with
  | null => exact h.elim
  | known t => exact h.elim
  | varying =>
      cases a with
      | null => trivial
      | known t => trivial
      | varying => trivial

theorem Le.trans (hab : a.Le u b) (hbc : b.Le u c) : a.Le u c := by
  cases b with
  | varying => exact hbc.of_varying a
  | null => cases a with
    | null => exact hbc
    | known s => exact hab.elim
    | varying => exact hab.elim
  | known t => cases a with
    | null => trivial
    | varying => exact hab.elim
    | known s => cases c with
      | null => exact hbc.elim
      | known r => exact Relation.ReflTransGen.trans hab hbc
      | varying => trivial

/-- The merge is the least that is as wide as both. -/
theorem merge_le_iff (hacyclic : u.Acyclic) (hunamb : u.Unambiguous) :
    (a.merge (.ofUniverse u) b).Le u c ↔ a.Le u c ∧ b.Le u c := by
  unfold merge
  by_cases hab : a = b
  · subst hab
    simp
  rw [if_neg hab]
  cases a with
  | null => cases b with
    | null => exact absurd rfl hab
    | known t => exact (and_iff_right trivial).symm
    | varying => exact (and_iff_right trivial).symm
  | varying => cases b with
    | varying => exact absurd rfl hab
    | null => exact (and_iff_left trivial).symm
    | known t => exact (and_iff_left_of_imp fun hc => hc.of_varying _).symm
  | known s => cases b with
    | null => exact (and_iff_left trivial).symm
    | varying => exact (and_iff_right_of_imp fun hc => hc.of_varying _).symm
    | known t =>
        have hspec := Hierarchy.commonSupertype?_spec hacyclic hunamb s t
        simp only
        split
        · next m hm =>
          rw [hm] at hspec
          cases c with
          | null => exact (and_self_iff (a := False)).symm
          | varying => exact (and_self_iff (a := True)).symm
          | known r =>
              exact ⟨fun hmr => ⟨hspec.left.trans hmr, hspec.right.trans hmr⟩,
                fun hr => hspec.least hr.1 hr.2⟩
        · next hnone =>
          rw [hnone] at hspec
          cases c with
          | null => exact (and_self_iff (a := False)).symm
          | varying => exact (and_self_iff (a := True)).symm
          | known r => exact ⟨fun hr => hr.elim, fun hr => hspec r hr⟩

/-! ## What is known of a variable -/

variable {x y z : Option InferredType}

/-- The order, with nothing known below everything. -/
def LeAt (u : Universe) : Option InferredType → Option InferredType → Prop
  | none, _ => True
  | some a, some b => a.Le u b
  | some _, none => False

theorem LeAt.refl (u : Universe) (x : Option InferredType) : LeAt u x x := by
  cases x with
  | none => trivial
  | some a => exact Le.refl u a

theorem LeAt.trans (hxy : LeAt u x y) (hyz : LeAt u y z) : LeAt u x z := by
  cases x with
  | none => trivial
  | some a => cases y with
    | none => exact hxy.elim
    | some b => cases z with
      | none => exact hyz.elim
      | some c => exact Le.trans hxy hyz

theorem leAt_merge_iff (hacyclic : u.Acyclic) (hunamb : u.Unambiguous) :
    LeAt u (Option.merge (merge (.ofUniverse u)) x y) z ↔ LeAt u x z ∧ LeAt u y z := by
  cases x with
  | none => cases y with
    | none => exact (and_iff_right trivial).symm
    | some b => exact (and_iff_right trivial).symm
  | some a => cases y with
    | none => exact (and_iff_left trivial).symm
    | some b => cases z with
      | none => exact ⟨fun h => h.elim, fun h => h.1⟩
      | some c => exact merge_le_iff hacyclic hunamb

/-- How often what is known of a variable can still be widened, at most. -/
def room (h : Hierarchy) : Option InferredType → Nat
  | none => (TypeLinks.targets h.supertypes).size + 3
  | some .null => (TypeLinks.targets h.supertypes).size + 2
  | some (.known t) => (h.ancestors t).size + 1
  | some .varying => 0

private theorem room_some_le (h : Hierarchy) (a : InferredType) :
    room h (some a) ≤ (TypeLinks.targets h.supertypes).size + 2 := by
  cases a with
  | null => exact Nat.le_refl _
  | known t =>
      show (h.ancestors t).size + 1 ≤ _
      have hbound := h.size_ancestors_le t
      omega
  | varying => exact Nat.zero_le _

theorem room_lt (hacyclic : u.Acyclic) (hle : LeAt u x y) (hne : x ≠ y) :
    room (.ofUniverse u) y < room (.ofUniverse u) x := by
  cases x with
  | none => cases y with
    | none => exact absurd rfl hne
    | some b => exact Nat.lt_succ_of_le (room_some_le _ b)
  | some a => cases y with
    | none => exact hle.elim
    | some b => cases a with
      | null => cases b with
        | null => exact absurd rfl hne
        | known t =>
            show _ + 1 < _ + 2
            have hbound := Hierarchy.size_ancestors_le (.ofUniverse u) t
            omega
        | varying => exact Nat.succ_pos _
      | known s => cases b with
        | null => exact hle.elim
        | known t =>
            have hst : s ≠ t := fun heq => hne (by rw [heq])
            exact Nat.succ_lt_succ (hacyclic.size_ancestors_lt hle hst)
        | varying => exact Nat.succ_pos _
      | varying => cases b with
        | null => exact hle.elim
        | known t => exact hle.elim
        | varying => exact absurd rfl hne

end InferredType

/-! ## The order of facts -/

namespace TypeFacts

open InferredType (LeAt room)

variable {f g d : TypeFacts} {x : Variable}

/-- Every variable is known to be what it was, or something wider. -/
def Le (u : Universe) (f g : TypeFacts) : Prop := ∀ x, LeAt u (f.get? x) (g.get? x)

theorem Le.refl (u : Universe) (f : TypeFacts) : f.Le u f := fun x => .refl u (f.get? x)

theorem Le.trans (hfg : f.Le u g) (hgd : g.Le u d) : f.Le u d := fun x => (hfg x).trans (hgd x)

theorem empty_le (u : Universe) (f : TypeFacts) : empty.Le u f := fun _ => trivial

theorem eq_of_get? (h : ∀ x, f.get? x = g.get? x) : f = g := by
  cases f
  cases g
  exact congrArg TypeFacts.mk (SortedMap.ext_get? h)

theorem get?_assign (f : TypeFacts) (dest : Variable) (type : Option InferredType)
    (x : Variable) : (f.assign dest type).get? x = if x = dest then type else f.get? x := by
  cases type with
  | none => exact SortedMap.get?_erase _ _ _
  | some a => exact SortedMap.get?_insert _ _ _ _

/-- One entry of the second fact of a merge. -/
private def absorb (h : Hierarchy) (f : TypeFacts) (e : Variable × InferredType) : TypeFacts :=
  ⟨f.types.insert e.1 (match f.get? e.1 with
    | some known => known.merge h e.2
    | none => e.2)⟩

private theorem get?_absorb (h : Hierarchy) (f : TypeFacts) (e : Variable × InferredType) :
    (absorb h f e).get? x =
      if x = e.1 then Option.merge (InferredType.merge h) (f.get? x) (some e.2)
      else f.get? x := by
  refine (SortedMap.get?_insert _ _ _ _).trans ?_
  split
  · next heq =>
    subst heq
    cases f.get? e.1 with
    | none => rfl
    | some a => rfl
  · rfl

private theorem get?_foldl_absorb (h : Hierarchy) (entries : List (Variable × InferredType)) :
    ∀ f : TypeFacts, KeysAscend entries →
      (entries.foldl (absorb h) f).get? x =
        Option.merge (InferredType.merge h) (f.get? x) (SortedMap.lookup x entries) := by
  induction entries with
  | nil =>
      intro f _
      show f.get? x = _
      cases f.get? x with
      | none => rfl
      | some a => rfl
  | cons e rest ih =>
      intro f hascend
      have hrest := List.pairwise_cons.1 hascend
      rw [List.foldl_cons, ih _ hrest.2, get?_absorb]
      by_cases hx : x = e.1
      · subst hx
        rw [if_pos rfl, SortedMap.lookup_of_forall_before hrest.1,
          (SortedMap.lookup_eq_some_iff hascend).2 List.mem_cons_self]
        cases Option.merge (InferredType.merge h) (f.get? e.1) (some e.2) with
        | none => rfl
        | some a => rfl
      · have hlookup : SortedMap.lookup x (e :: rest) = SortedMap.lookup x rest := by
          refine Option.ext fun a => ?_
          rw [SortedMap.lookup_eq_some_iff hascend, SortedMap.lookup_eq_some_iff hrest.2,
            List.mem_cons]
          exact or_iff_right fun heq => hx (congrArg Prod.fst heq)
        rw [if_neg hx, hlookup]

/-- Facts are merged variable by variable. -/
theorem get?_merge (h : Hierarchy) (f g : TypeFacts) (x : Variable) :
    (merge h f g).get? x = Option.merge (InferredType.merge h) (f.get? x) (g.get? x) :=
  get?_foldl_absorb h g.types.entries f g.types.ascending

theorem merge_le_iff (hacyclic : u.Acyclic) (hunamb : u.Unambiguous) :
    (merge (.ofUniverse u) f g).Le u d ↔ f.Le u d ∧ g.Le u d := by
  unfold Le
  rw [← forall_and]
  refine forall_congr' fun x => ?_
  rw [get?_merge]
  exact InferredType.leAt_merge_iff hacyclic hunamb

/-- The join is the least fact above all facts. -/
theorem join_le_iff (hacyclic : u.Acyclic) (hunamb : u.Unambiguous) {facts : List TypeFacts}
    (hne : facts ≠ []) : (join (.ofUniverse u) facts).Le u d ↔ ∀ f ∈ facts, f.Le u d := by
  obtain ⟨first, rest, rfl⟩ := List.exists_cons_of_ne_nil hne
  clear hne
  rw [join, List.forall_mem_cons]
  induction rest generalizing first with
  | nil => simp
  | cons g rest ih =>
      rw [List.foldl_cons, ih, merge_le_iff hacyclic hunamb, List.forall_mem_cons, and_assoc]

theorem joinsLeast (hacyclic : u.Acyclic) (hunamb : u.Unambiguous) (parameters : List Variable)
    (c : Cfg) : (analysis (.ofUniverse u) parameters c).JoinsLeast (Le u) := by
  intro facts hne
  refine ⟨join (.ofUniverse u) facts, rfl, ?_, fun d hd => ?_⟩
  · exact (join_le_iff hacyclic hunamb hne).1 (.refl u _)
  · exact (join_le_iff hacyclic hunamb hne).2 hd

/-- Something is known of these variables at most. -/
def Within (f : TypeFacts) (vars : Finset Variable) : Prop := ∀ x, f.get? x ≠ none → x ∈ vars

/-- How often a fact about the given variables can still be widened, at
most. -/
def totalRoom (h : Hierarchy) (vars : Finset Variable) (f : TypeFacts) : Nat :=
  ∑ x ∈ vars, room h (f.get? x)

theorem totalRoom_lt (hacyclic : u.Acyclic) {vars : Finset Variable} (hf : f.Within vars)
    (hg : g.Within vars) (hle : f.Le u g) (hne : f ≠ g) :
    totalRoom (.ofUniverse u) vars g < totalRoom (.ofUniverse u) vars f := by
  obtain ⟨x, hx⟩ : ∃ x, f.get? x ≠ g.get? x := by
    by_contra hall
    exact hne (eq_of_get? fun x => by_contra fun hx => hall ⟨x, hx⟩)
  have hmem : x ∈ vars := by
    by_cases hnone : f.get? x = none
    · exact hg x fun hnone' => hx (hnone.trans hnone'.symm)
    · exact hf x hnone
  refine Finset.sum_lt_sum (fun y _ => ?_) ⟨x, hmem, InferredType.room_lt hacyclic (hle x) hx⟩
  by_cases hy : f.get? y = g.get? y
  · rw [hy]
  · exact Nat.le_of_lt (InferredType.room_lt hacyclic (hle y) hy)

end TypeFacts

end MethodFlow
