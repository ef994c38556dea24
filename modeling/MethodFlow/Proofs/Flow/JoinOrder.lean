import Mathlib.Data.List.Perm.Basic
import MethodFlow.Proofs.Flow.CommonSupertypes

/-!
# The order of joins

Where paths meet, their facts are merged one after the other, in the order in
which the edges were inserted.  This order has no influence on the result if
merging is commutative and associative.

Commutative it is in every universe without cycles, since what two types widen
to is said of both alike.  Associative it is not always.  When two types have
two closest common interfaces, their merge varies, and a type that varies stays
so; but if one of them meets one of the interfaces first, the merge is that
interface.  What decides is whether types that have a common supertype have a
least one (`Universe.Unambiguous`).  If they have, merges are least upper
bounds, and these are associative.  If merges are associative, then merging two
types and a common supertype of theirs ends in that supertype, however it is
done, so that the merge of the two lies below each of their common supertypes.

## Main results

* `InferredType.merge_comm`: merging is commutative.
* `InferredType.merge_assoc`, `InferredType.unambiguous_of_assoc`: it is
  associative exactly where least common supertypes exist.
* `TypeFacts.join_order_exact`: the laws of merging, and where joins do not
  depend on the order of their facts.
-/

namespace MethodFlow

variable {u : Universe}

/-! ## Types -/

namespace InferredType

variable {a b c : InferredType} {s t m : TypeName}

theorem Le.antisymm (hacyclic : u.Acyclic) (hab : a.Le u b) (hba : b.Le u a) : a = b := by
  cases a with
  | null => cases b with
    | null => rfl
    | known t => exact hba.elim
    | varying => exact hba.elim
  | known s => cases b with
    | null => exact hab.elim
    | known t => exact congrArg known (hacyclic.antisymm hab hba)
    | varying => exact hba.elim
  | varying => cases b with
    | null => exact hab.elim
    | known t => exact hab.elim
    | varying => rfl

theorem merge_self (h : Hierarchy) (a : InferredType) : merge h a a = a := if_pos rfl

/-- Two types that meet widen to the same, whichever comes first. -/
theorem merge_known_comm (hacyclic : u.Acyclic) (s t : TypeName) :
    merge (.ofUniverse u) (.known s) (.known t) =
      merge (.ofUniverse u) (.known t) (.known s) := by
  have hsame : (Hierarchy.ofUniverse u).commonSupertype? s t =
      (Hierarchy.ofUniverse u).commonSupertype? t s := by
    refine Option.ext fun m => ?_
    rw [Hierarchy.commonSupertype?_eq_some_iff hacyclic,
      Hierarchy.commonSupertype?_eq_some_iff hacyclic, Universe.takes_comm]
  rw [merge_known, merge_known, hsame]

theorem merge_comm (hacyclic : u.Acyclic) (a b : InferredType) :
    merge (.ofUniverse u) a b = merge (.ofUniverse u) b a := by
  cases a with
  | null => cases b with
    | null => rfl
    | known t => rfl
    | varying => rfl
  | known s => cases b with
    | null => rfl
    | known t => exact merge_known_comm hacyclic s t
    | varying => rfl
  | varying => cases b with
    | null => rfl
    | known t => rfl
    | varying => rfl

/-- Least upper bounds are associative. -/
theorem merge_assoc (hacyclic : u.Acyclic) (hunamb : u.Unambiguous) (a b c : InferredType) :
    merge (.ofUniverse u) (merge (.ofUniverse u) a b) c =
      merge (.ofUniverse u) a (merge (.ofUniverse u) b c) := by
  have hbounds : ∀ d, (merge (.ofUniverse u) (merge (.ofUniverse u) a b) c).Le u d ↔
      (merge (.ofUniverse u) a (merge (.ofUniverse u) b c)).Le u d := by
    intro d
    simp only [merge_le_iff hacyclic hunamb, and_assoc]
  exact Le.antisymm hacyclic ((hbounds _).2 (.refl u _)) ((hbounds _).1 (.refl u _))

/-- A type that meets one of its supertypes widens to it. -/
theorem merge_known_of_under (h : u.Under s t) :
    merge (.ofUniverse u) (.known s) (.known t) = .known t := by
  rw [merge_known, Hierarchy.commonSupertype?_eq, if_pos (Hierarchy.isSubtype_iff.2 h)]

theorem under_of_merge (hacyclic : u.Acyclic)
    (h : merge (.ofUniverse u) (.known s) (.known t) = .known m) :
    u.Under s m ∧ u.Under t m := by
  rcases (merge_known_eq_known_iff hacyclic).1 h with ⟨⟨hclosest, -⟩, -⟩ | ⟨hclosest, -⟩
  · exact ⟨hclosest.left, hclosest.right⟩
  · exact ⟨hclosest.left, hclosest.right⟩

/-- Where merging is associative, the merge of two types lies below each of
their common supertypes. -/
theorem unambiguous_of_assoc (hacyclic : u.Acyclic)
    (hassoc : ∀ a b c, merge (.ofUniverse u) (merge (.ofUniverse u) a b) c =
      merge (.ofUniverse u) a (merge (.ofUniverse u) b c)) : u.Unambiguous := by
  intro s t r hsr htr
  -- With a common supertype as the third, the other way around ends there.
  have habsorbs : ∀ {r}, u.Under s r → u.Under t r →
      merge (.ofUniverse u) (merge (.ofUniverse u) (.known s) (.known t)) (.known r) =
        .known r := by
    intro r hsr htr
    rw [hassoc, merge_known_of_under htr, merge_known_of_under hsr]
  cases hmerged : merge (.ofUniverse u) (.known s) (.known t) with
  | null =>
      rw [merge_known] at hmerged
      split at hmerged <;> cases hmerged
  | varying =>
      have hvaries := habsorbs hsr htr
      rw [hmerged] at hvaries
      cases hvaries
  | known m =>
      obtain ⟨hsm, htm⟩ := under_of_merge hacyclic hmerged
      refine ⟨m, hsm, htm, fun {r} hsr htr => ?_⟩
      have hbelow := habsorbs hsr htr
      rw [hmerged] at hbelow
      exact (under_of_merge hacyclic hbelow).1

end InferredType

/-! ## Facts -/

namespace TypeFacts

variable {facts facts' : List TypeFacts}

theorem merge_comm (hacyclic : u.Acyclic) (f g : TypeFacts) :
    merge (.ofUniverse u) f g = merge (.ofUniverse u) g f := by
  have : Std.Commutative (InferredType.merge (.ofUniverse u)) :=
    ⟨InferredType.merge_comm hacyclic⟩
  refine eq_of_get? fun x => ?_
  rw [get?_merge, get?_merge]
  exact Std.Commutative.comm (f.get? x) (g.get? x)

theorem merge_assoc (hacyclic : u.Acyclic) (hunamb : u.Unambiguous) (f g d : TypeFacts) :
    merge (.ofUniverse u) (merge (.ofUniverse u) f g) d =
      merge (.ofUniverse u) f (merge (.ofUniverse u) g d) := by
  have : Std.Associative (InferredType.merge (.ofUniverse u)) :=
    ⟨InferredType.merge_assoc hacyclic hunamb⟩
  refine eq_of_get? fun x => ?_
  rw [get?_merge, get?_merge, get?_merge, get?_merge]
  exact Std.Associative.assoc (f.get? x) (g.get? x) (d.get? x)

theorem empty_merge (h : Hierarchy) (f : TypeFacts) : merge h empty f = f := by
  refine eq_of_get? fun x => ?_
  rw [get?_merge]
  exact Option.merge_none_left

/-- A join can also begin with nothing known. -/
theorem join_eq_foldl (h : Hierarchy) (facts : List TypeFacts) :
    join h facts = facts.foldl (merge h) empty := by
  cases facts with
  | nil => rfl
  | cons first rest => rw [join, List.foldl_cons, empty_merge]

/-- Where least common supertypes exist, facts may be joined in any order. -/
theorem join_perm (hacyclic : u.Acyclic) (hunamb : u.Unambiguous) (h : facts.Perm facts') :
    join (.ofUniverse u) facts = join (.ofUniverse u) facts' := by
  rw [join_eq_foldl, join_eq_foldl]
  refine h.foldl_eq' (fun f _ g _ d => ?_) empty
  rw [merge_assoc hacyclic hunamb, merge_comm hacyclic f g, merge_assoc hacyclic hunamb]

/-- The fact that a variable has a type, and nothing else. -/
def only (x : Variable) (a : InferredType) : TypeFacts := empty.assign x (some a)

theorem get?_only (x : Variable) (a : InferredType) : (only x a).get? x = some a := by
  rw [only, get?_assign, if_pos rfl]

/-- Facts about one variable are joined as its types are merged. -/
theorem get?_join_only (h : Hierarchy) (x : Variable) (a b c : InferredType) :
    (join h [only x a, only x b, only x c]).get? x = some ((a.merge h b).merge h c) := by
  show (merge h (merge h (only x a) (only x b)) (only x c)).get? x = _
  rw [get?_merge, get?_merge, get?_only, get?_only, get?_only, Option.merge_some_some,
    Option.merge_some_some]

/-- Joins in any order make merging associative. -/
theorem assoc_of_join_perm (hacyclic : u.Acyclic)
    (hperm : ∀ facts facts' : List TypeFacts, facts.Perm facts' →
      join (.ofUniverse u) facts = join (.ofUniverse u) facts') (a b c : InferredType) :
    (a.merge (.ofUniverse u) b).merge (.ofUniverse u) c =
      a.merge (.ofUniverse u) (b.merge (.ofUniverse u) c) := by
  let x : Variable := ⟨"x", none, .local⟩
  have hrotated : [only x a, only x b, only x c].Perm [only x b, only x c, only x a] :=
    (List.perm_append_singleton (only x a) [only x b, only x c]).symm
  have hjoins := congrArg (get? · x) (hperm _ _ hrotated)
  simp only [get?_join_only, Option.some_inj] at hjoins
  rw [hjoins, InferredType.merge_comm hacyclic a]

/-- **The laws of merging, and the order of joins.**  In a universe without
cycles merging types is idempotent and commutative, and of the facts that meet
the first two may change places.  Merging is associative, and joins do not
depend on the order of their facts at all, exactly where any two types that
have a common supertype have a least one. -/
theorem join_order_exact (hacyclic : u.Acyclic) :
    (∀ a : InferredType, a.merge (.ofUniverse u) a = a) ∧
      (∀ a b : InferredType, a.merge (.ofUniverse u) b = b.merge (.ofUniverse u) a) ∧
      ((∀ a b c : InferredType, (a.merge (.ofUniverse u) b).merge (.ofUniverse u) c =
          a.merge (.ofUniverse u) (b.merge (.ofUniverse u) c)) ↔ u.Unambiguous) ∧
      (∀ (f g : TypeFacts) (rest : List TypeFacts),
        join (.ofUniverse u) (f :: g :: rest) = join (.ofUniverse u) (g :: f :: rest)) ∧
      ((∀ facts facts' : List TypeFacts, facts.Perm facts' →
          join (.ofUniverse u) facts = join (.ofUniverse u) facts') ↔ u.Unambiguous) ∧
      ((∀ child p q, u.Declares child p → u.Declares child q → p = q) → u.Unambiguous) := by
  refine ⟨InferredType.merge_self _, InferredType.merge_comm hacyclic, ⟨?_, ?_⟩, ?_, ⟨?_, ?_⟩, ?_⟩
  · exact InferredType.unambiguous_of_assoc hacyclic
  · exact InferredType.merge_assoc hacyclic
  · intro f g rest
    rw [join, join, List.foldl_cons, List.foldl_cons, merge_comm hacyclic]
  · intro hperm
    exact InferredType.unambiguous_of_assoc hacyclic (assoc_of_join_perm hacyclic hperm)
  · intro hunamb facts facts'
    exact join_perm hacyclic hunamb
  · intro hsingle
    exact Universe.unambiguous_of_single_parent fun hp hq => hsingle _ _ _ hp hq

/-- Circles and squares are shapes, which have an interface. -/
def figures : Universe :=
  .ofList
    [⟨"IShape", .interfaceType, none, [], []⟩, ⟨"Shape", .classType, none, ["IShape"], []⟩,
      ⟨"Circle", .classType, some "Shape", [], []⟩, ⟨"Square", .classType, some "Shape", [], []⟩]

/-- A circle, a null and a square are a shape, in whichever order they
arrive. -/
theorem join_order_exact_figures :
    figures.Acyclic ∧ figures.Unambiguous ∧
      ∀ x : Variable, ∀ facts,
        [only x (.known "Circle"), only x .null, only x (.known "Square")].Perm facts →
          (join (.ofUniverse figures) facts).get? x = some (.known "Shape") := by
  have hacyclic : figures.Acyclic :=
    Universe.acyclic_of_rank
      (fun t => if t = "IShape" then 0 else if t = "Shape" then 1 else 2) (by decide +kernel)
  have hunamb : figures.Unambiguous := by
    have hparents : ∀ d ∈ figures.toList, ∀ e ∈ figures.toList, d.name = e.name →
        ∀ p ∈ d.base.toList ++ d.interfaces, ∀ q ∈ e.base.toList ++ e.interfaces, p = q := by
      decide +kernel
    refine (join_order_exact hacyclic).2.2.2.2.2 ?_
    rintro child p q ⟨d, hd, hchild, hp⟩ ⟨e, he, hchild', hq⟩
    exact hparents d hd e he (hchild.trans hchild'.symm) p hp q hq
  refine ⟨hacyclic, hunamb, fun x facts hperm => ?_⟩
  rw [← (join_order_exact hacyclic).2.2.2.2.1.2 hunamb _ _ hperm, get?_join_only]
  decide +kernel

/-- **Where interfaces overlap the order matters.**  A disc and a ring vary, and
then it does not help that both can be drawn; a ring and something that can be
drawn can be drawn, and so can a disc. -/
theorem join_order_matters_drawings :
    drawings.Acyclic ∧
      (InferredType.merge (.ofUniverse drawings) (.known "Disc") (.known "Ring")).merge
          (.ofUniverse drawings) (.known "IDraw") = .varying ∧
      InferredType.merge (.ofUniverse drawings) (.known "Disc")
          (InferredType.merge (.ofUniverse drawings) (.known "Ring") (.known "IDraw")) =
        .known "IDraw" ∧
      ∃ facts facts' : List TypeFacts, facts ≠ [] ∧ facts.Perm facts' ∧
        join (.ofUniverse drawings) facts ≠ join (.ofUniverse drawings) facts' := by
  refine ⟨acyclic_drawings, by decide +kernel, by decide +kernel, ?_⟩
  let x : Variable := ⟨"x", none, .local⟩
  refine ⟨[only x (.known "Disc"), only x (.known "Ring"), only x (.known "IDraw")],
    [only x (.known "Ring"), only x (.known "IDraw"), only x (.known "Disc")], by simp, ?_, ?_⟩
  · exact (List.perm_append_singleton _ [only x (.known "Ring"), only x (.known "IDraw")]).symm
  · decide +kernel

end TypeFacts

end MethodFlow
