import MethodFlow.Proofs.Flow.Widening

/-!
# Where type inference settles

Joins widen facts, so a run ends if transfers keep the order of facts.  All
of them do but one: a copy of a variable of which nothing is known falls back
on a declared type, and gives that up again as soon as something, perhaps
something unrelated, is known of the variable.  Two declared variables that
swap their values in a loop take turns in falling back, and their types
follow each other around forever (`TypeFacts.solve_unsettled_swapLoop`).
Joins are to blame as well where supertypes are ambiguous
(`TypeFacts.solve_unsettled_overlapLoop`).

Which variables are known does not depend on types.  Along a path from the
entry it can be read off the path, and the facts of a run know at least what
some path to their node knows.  So if copies on paths find their sources
known, copies in the run do, and the run settles.

## Main results

* `TypeFacts.Le.foldl_apply`: a block whose copies do not fall back keeps the
  order of facts.
* `TypeFacts.ascent`: the facts of a run rise.
* `TypeFacts.sourcesKnown_of_steady`: copies of declared parameters, and
  copies without declared types, do not fall back.
* `TypeFacts.solve_settles`: the analysis settles in unambiguous universes if
  no copy falls back.
-/

namespace MethodFlow

namespace TypeFacts

open InferredType (LeAt)

variable {u : Universe} {f g : TypeFacts} {x dest : Variable} {i : Instruction}
  {code : List Instruction} {parameters : List Variable} {vars : Finset Variable}

/-! ## Which variables are known -/

/-- Something is known of every variable of which the other fact knows
something. -/
def Covers (f g : TypeFacts) : Prop := ∀ x, g.get? x ≠ none → f.get? x ≠ none

theorem Covers.refl (f : TypeFacts) : f.Covers f := fun _ h => h

theorem Covers.trans {d : TypeFacts} (hfg : f.Covers g) (hgd : g.Covers d) : f.Covers d :=
  fun x h => hfg x (hgd x h)

theorem covers_empty (f : TypeFacts) : f.Covers empty := fun _ h => absurd rfl h

theorem Le.covers (h : f.Le u g) : g.Covers f := by
  intro x hx hnone
  have hle := h x
  rw [hnone] at hle
  cases hfx : f.get? x with
  | none => exact hx hfx
  | some a => rw [hfx] at hle; exact hle.elim

theorem get?_apply (f : TypeFacts) (i : Instruction) (x : Variable) :
    (f.apply i).get? x = if i.op.defined = some x then f.produced x i.op else f.get? x := by
  unfold apply
  cases i.op.defined with
  | none => rw [if_neg (by simp)]
  | some dest =>
      refine (get?_assign f dest _ x).trans ?_
      by_cases hx : x = dest
      · rw [if_pos hx, if_pos (congrArg some hx.symm), hx]
      · rw [if_neg hx, if_neg fun hdest => hx (Option.some.inj hdest).symm]

/-- Whether the instruction copies a variable of which nothing is known and
has a declared type to put in its place. -/
def fallsBack (f : TypeFacts) (i : Instruction) : Bool :=
  match i.op with
  | .copy dest source => (f.get? source).isNone && (source.type.isSome || dest.type.isSome)
  | _ => false

/-- A copy that does not fall back produces what is known of its source. -/
private theorem produced_copy {source : Variable} (hop : i.op = .copy dest source)
    (h : f.fallsBack i = false) : f.produced dest i.op = f.get? source := by
  rw [hop, produced]
  cases hsource : f.get? source with
  | some a => rfl
  | none =>
      simp only [fallsBack, hop, hsource, Option.isNone_none, Bool.true_and, Bool.or_eq_false_iff,
        Option.isSome_eq_false_iff, Option.isNone_iff_eq_none] at h
      simp [declared, h.1, h.2]

/-- All other operations produce the same whatever is known. -/
private theorem produced_congr (h : ∀ dest source, i.op ≠ .copy dest source)
    (f g : TypeFacts) (dest : Variable) : f.produced dest i.op = g.produced dest i.op := by
  unfold produced
  split
  · rfl
  · rfl
  · rfl
  · next hop => exact absurd hop (h _ _)
  · rfl

theorem Covers.fallsBack (h : f.Covers g) (hg : g.fallsBack i = false) :
    f.fallsBack i = false := by
  unfold TypeFacts.fallsBack at hg ⊢
  split
  · next dest source hop =>
    rw [hop] at hg
    simp only [Bool.and_eq_false_iff, Option.isNone_eq_false_iff, Option.isSome_iff_ne_none]
      at hg ⊢
    exact hg.imp_left (h source)
  · rfl

private theorem Covers.produced (h : f.Covers g) (hg : g.produced x i.op ≠ none) :
    f.produced x i.op ≠ none := by
  by_cases hcopy : ∃ d source, i.op = .copy d source
  · obtain ⟨d, source, hop⟩ := hcopy
    rw [hop, TypeFacts.produced] at hg ⊢
    simp only [ne_eq, Option.or_eq_none_iff, not_and] at hg ⊢
    intro hnone
    refine hg ⟨?_, hnone.2⟩
    by_contra hsome
    exact h source hsome hnone.1
  · rwa [produced_congr (fun d s hop => hcopy ⟨d, s, hop⟩) f g]

theorem Covers.apply (h : f.Covers g) (i : Instruction) : (f.apply i).Covers (g.apply i) := by
  intro x hx
  rw [get?_apply] at hx ⊢
  by_cases hdef : i.op.defined = some x
  · rw [if_pos hdef] at hx ⊢
    exact h.produced hx
  · rw [if_neg hdef] at hx ⊢
    exact h x hx

theorem Covers.foldl_apply (h : f.Covers g) (code : List Instruction) :
    (code.foldl TypeFacts.apply f).Covers (code.foldl TypeFacts.apply g) := by
  induction code generalizing f g with
  | nil => exact h
  | cons i code ih => exact ih (h.apply i)

/-- No copy of the code falls back when it is run from a fact. -/
def KnowsSources : TypeFacts → List Instruction → Prop
  | _, [] => True
  | f, i :: rest => f.fallsBack i = false ∧ KnowsSources (f.apply i) rest

theorem knowsSources_append {front back : List Instruction} :
    f.KnowsSources (front ++ back) ↔
      f.KnowsSources front ∧ (front.foldl apply f).KnowsSources back := by
  induction front generalizing f with
  | nil => exact (and_iff_right trivial).symm
  | cons i front ih =>
      rw [List.cons_append, List.foldl_cons]
      show f.fallsBack i = false ∧ (f.apply i).KnowsSources (front ++ back) ↔
        (f.fallsBack i = false ∧ (f.apply i).KnowsSources front) ∧ _
      rw [ih, and_assoc]

theorem Covers.knowsSources (h : f.Covers g) (hg : g.KnowsSources code) :
    f.KnowsSources code := by
  induction code generalizing f g with
  | nil => trivial
  | cons i code ih => exact ⟨h.fallsBack hg.1, ih (h.apply i) hg.2⟩

/-! ## Transfers -/

private theorem Le.produced (h : f.Le u g) (hf : f.fallsBack i = false)
    (hdef : i.op.defined = some x) : LeAt u (f.produced x i.op) (g.produced x i.op) := by
  by_cases hcopy : ∃ d source, i.op = .copy d source
  · obtain ⟨d, source, hop⟩ := hcopy
    have hd : d = x := by
      rw [hop] at hdef
      exact Option.some.inj hdef
    subst hd
    rw [produced_copy hop hf, produced_copy hop (h.covers.fallsBack hf)]
    exact h source
  · rw [produced_congr (fun d s hop => hcopy ⟨d, s, hop⟩) f g]
    exact .refl u _

theorem Le.apply (h : f.Le u g) (hf : f.fallsBack i = false) : (f.apply i).Le u (g.apply i) := by
  intro x
  rw [get?_apply, get?_apply]
  by_cases hdef : i.op.defined = some x
  · rw [if_pos hdef, if_pos hdef]
    exact h.produced hf hdef
  · rw [if_neg hdef, if_neg hdef]
    exact h x

/-- A block whose copies do not fall back keeps the order of the facts that
flow in. -/
theorem Le.foldl_apply (h : f.Le u g) (hf : f.KnowsSources code) :
    (code.foldl TypeFacts.apply f).Le u (code.foldl TypeFacts.apply g) := by
  induction code generalizing f g with
  | nil => exact h
  | cons i code ih => exact ih (h.apply hf.1) hf.2

theorem Within.foldl_apply (h : f.Within vars)
    (hcode : ∀ i ∈ code, ∀ dest, i.op.defined = some dest → dest ∈ vars) :
    (code.foldl TypeFacts.apply f).Within vars := by
  induction code generalizing f with
  | nil => exact h
  | cons i code ih =>
      rw [List.forall_mem_cons] at hcode
      refine ih (fun x hx => ?_) hcode.2
      rw [get?_apply] at hx
      by_cases hdef : i.op.defined = some x
      · exact hcode.1 x hdef
      · rw [if_neg hdef] at hx
        exact h x hx

theorem Within.merge {h : Hierarchy} (hf : f.Within vars) (hg : g.Within vars) :
    (merge h f g).Within vars := by
  intro x hx
  rw [get?_merge] at hx
  cases hfx : f.get? x with
  | some a => exact hf x (by simp [hfx])
  | none =>
      refine hg x fun hgx => hx ?_
      rw [hfx, hgx]
      rfl

theorem within_join {h : Hierarchy} {facts : List TypeFacts} (hfacts : ∀ f ∈ facts, f.Within vars) :
    (join h facts).Within vars := by
  cases facts with
  | nil => exact fun x hx => absurd rfl hx
  | cons first rest =>
      rw [List.forall_mem_cons] at hfacts
      show (rest.foldl (TypeFacts.merge h) first).Within vars
      induction rest generalizing first with
      | nil => exact hfacts.1
      | cons g rest ih =>
          rw [List.forall_mem_cons] at hfacts
          exact ih (first.merge h g) ⟨hfacts.1.merge hfacts.2.1, hfacts.2.2⟩

private theorem within_ofParameters (parameters : List Variable) (f : TypeFacts)
    (hf : f.Within vars) (h : ∀ x ∈ parameters, x ∈ vars) :
    (parameters.foldl (fun f x => f.assign x (declared x)) f).Within vars := by
  induction parameters generalizing f with
  | nil => exact hf
  | cons p parameters ih =>
      rw [List.forall_mem_cons] at h
      refine ih _ (fun x hx => ?_) h.2
      rw [get?_assign] at hx
      by_cases hxp : x = p
      · exact hxp ▸ h.1
      · rw [if_neg hxp] at hx
        exact hf x hx

/-! ## Facts along paths -/

/-- The fact at the end of a path from the entry, with no joins. -/
def along (c : Cfg) (parameters : List Variable) (path : List NodeId) : TypeFacts :=
  (path.flatMap c.codeOf).foldl apply (ofParameters parameters)

/-- No copy falls back: not on a path from the entry, and not in unreachable
blocks, each of which has to know by itself what it copies. -/
structure SourcesKnown (c : Cfg) (parameters : List Variable) : Prop where
  reached : ∀ {n path}, c.view.Path Cfg.entry n path →
    (ofParameters parameters).KnowsSources (path.flatMap c.codeOf)
  unreached : ∀ n < c.size, ¬ c.view.Reaches Cfg.entry n → empty.KnowsSources (c.codeOf n)

/-- The variables that a fact can know something of. -/
def scope (c : Cfg) (parameters : List Variable) : Finset Variable :=
  (parameters ++ c.code.filterMap fun i => i.op.defined).toFinset

/-- Facts speak of variables in scope and, where the entry leads, know what
some path knows. -/
structure Informed (c : Cfg) (parameters : List Variable) (outs : NodeId → Option TypeFacts) :
    Prop where
  within : ∀ {n f}, outs n = some f → f.Within (scope c parameters)
  covers : ∀ {n f}, c.view.Reaches Cfg.entry n → outs n = some f →
    ∃ path, c.view.Path Cfg.entry n path ∧ f.Covers (along c parameters path)

/-- A node that the entry reaches is ready once a predecessor that the entry
reaches has a fact. -/
def Ready (c : Cfg) (outs : NodeId → Option TypeFacts) (n : NodeId) : Prop :=
  n = Cfg.entry ∨ ¬ c.view.Reaches Cfg.entry n ∨
    ∃ p ∈ c.view.pred n, c.view.Reaches Cfg.entry p ∧ outs p ≠ none

variable {c : Cfg} {n : NodeId} {outs outs' : NodeId → Option TypeFacts}

private theorem ready_of_order (hc : c.Wired) {front back : List NodeId}
    (horder : c.view.topologicalOrder = front ++ n :: back)
    (hfront : ∀ m ∈ front, outs m ≠ none) : Ready c outs n := by
  by_cases hn : c.view.Reaches Cfg.entry n
  · have hreached : c.view.ReachedFrom [Cfg.entry] n :=
      ⟨Cfg.entry, List.mem_singleton_self _, hc.entry_lt, hn⟩
    rcases View.exists_leader hc.linked hc.entry_first horder hreached with
      hroot | ⟨p, hp, hpred, r, hr, -, hreach⟩
    · exact .inl (List.mem_singleton.1 hroot)
    · rw [List.mem_singleton.1 hr] at hreach
      exact .inr (.inr ⟨p, hpred, hreach, hfront p hp⟩)
  · exact .inr (.inl hn)

theorem plain (h : Hierarchy) (parameters : List Variable) (c : Cfg) :
    (analysis h parameters c).Plain where
  stateless _ _ _ _ := rfl
  same_iff _ _ := beq_iff_eq

private theorem defined_mem_scope (hn : n < c.size) (hi : i ∈ c.codeOf n)
    (hdef : i.op.defined = some dest) : dest ∈ scope c parameters := by
  refine List.mem_toFinset.2 (List.mem_append_right _ (List.mem_filterMap.2 ⟨i, ?_, hdef⟩))
  exact List.mem_flatMap.2 ⟨n, List.mem_range.2 hn, hi⟩

/-- What flows into a node speaks of variables in scope. -/
private theorem within_inflow {h : Hierarchy} (houts : Informed c parameters outs)
    (hf : (analysis h parameters c).inflow c.view outs n = .ok f) :
    f.Within (scope c parameters) := by
  rcases Analysis.inflow_cases hf with ⟨-, rfl⟩ | ⟨-, -, rfl⟩ | ⟨-, -, hjoin⟩
  · refine within_ofParameters parameters empty (fun x hx => absurd rfl hx) fun x hx => ?_
    exact List.mem_toFinset.2 (List.mem_append_left _ hx)
  · exact fun x hx => absurd rfl hx
  · rw [← Except.ok.inj hjoin]
    refine within_join fun g hg => ?_
    obtain ⟨p, -, hp⟩ := List.mem_filterMap.1 hg
    exact houts.within hp

/-- What flows into a ready node that the entry reaches knows what some path
to the node knows before it passes the node. -/
private theorem inflow_covers (hacyclic : u.Acyclic) (hunamb : u.Unambiguous) (hc : c.Wired)
    (houts : Informed c parameters outs) (hready : Ready c outs n)
    (hn : c.view.Reaches Cfg.entry n)
    (hf : (analysis (.ofUniverse u) parameters c).inflow c.view outs n = .ok f) :
    ∃ path g, c.view.Path Cfg.entry n path ∧ f.Covers g ∧
      along c parameters path = (c.codeOf n).foldl apply g ∧
      (SourcesKnown c parameters → g.KnowsSources (c.codeOf n)) := by
  rcases hready with hentry | hdead | ⟨p, hp, hreach, hknown⟩
  · subst hentry
    have hboundary := Except.ok.inj ((Analysis.inflow_origin _ c.view outs).symm.trans hf)
    refine ⟨[Cfg.entry], ofParameters parameters, .start, ?_, ?_, fun hsources => ?_⟩
    · rw [← hboundary]
      exact .refl _
    · simp [along]
    · simpa using hsources.reached .start
  · exact absurd hn hdead
  · obtain ⟨g, hg⟩ := Option.ne_none_iff_exists'.1 hknown
    obtain ⟨path, hpath, hcovers⟩ := houts.covers hreach hg
    have hstep := hpath.step (hc.linked.mem_pred.1 hp)
    refine ⟨path ++ [n], along c parameters path, hstep, ?_, ?_, fun hsources => ?_⟩
    · -- The join lies above the fact of `p` and so knows all that it knows.
      have horigin : n ≠ (analysis (.ofUniverse u) parameters c).origin :=
        fun heq => hc.not_to_entry (heq ▸ hc.linked.mem_pred.1 hp)
      have hmem : g ∈ (c.view.pred n).filterMap outs := List.mem_filterMap.2 ⟨p, hp, hg⟩
      obtain ⟨joined, hjoined, habove, -⟩ :=
        joinsLeast hacyclic hunamb parameters c _ (List.ne_nil_of_mem hmem)
      rw [Analysis.inflow_join horigin (List.ne_nil_of_mem hmem), hjoined] at hf
      rw [← Except.ok.inj hf]
      exact (habove g hmem).covers.trans hcovers
    · simp [along]
    · have hknows := hsources.reached hstep
      rw [List.flatMap_append, knowsSources_append, List.flatMap_singleton] at hknows
      exact hknows.2

/-- Copies in a ready node do not fall back. -/
private theorem knowsSources_inflow (hacyclic : u.Acyclic) (hunamb : u.Unambiguous)
    (hc : c.Wired) (hsources : SourcesKnown c parameters) (houts : Informed c parameters outs)
    (hready : Ready c outs n) (hn : n < c.size)
    (hf : (analysis (.ofUniverse u) parameters c).inflow c.view outs n = .ok f) :
    f.KnowsSources (c.codeOf n) := by
  by_cases hreach : c.view.Reaches Cfg.entry n
  · obtain ⟨path, g, -, hcovers, -, hknows⟩ :=
      inflow_covers hacyclic hunamb hc houts hready hreach hf
    exact hcovers.knowsSources (hknows hsources)
  · exact (covers_empty f).knowsSources (hsources.unreached n hn hreach)

/-- Type inference rises as long as no copy falls back. -/
theorem ascent (hacyclic : u.Acyclic) (hunamb : u.Unambiguous) (hc : c.Wired)
    (hsources : SourcesKnown c parameters) :
    (analysis (.ofUniverse u) parameters c).Ascent c.view (Le u)
      (totalRoom (.ofUniverse u) (scope c parameters)) (Informed c parameters) (Ready c) where
  refl := Le.refl u
  trans _ _ _ := Le.trans
  legal_start := ⟨nofun, nofun⟩
  ready_of_order := ready_of_order hc
  ready_mono := by
    rintro outs outs' n hrises (hn | hn | ⟨p, hp, hreach, hknown⟩)
    · exact .inl hn
    · exact .inr (.inl hn)
    · obtain ⟨f, hf⟩ := Option.ne_none_iff_exists'.1 hknown
      obtain ⟨g, hg, -⟩ := hrises p f hf
      exact .inr (.inr ⟨p, hp, hreach, by simp [hg]⟩)
  advance := by
    intro outs n houts hn hready
    obtain ⟨f, hf⟩ :=
      Analysis.exists_inflow (joinsLeast hacyclic hunamb parameters c) c.view outs n
    refine ⟨f, (c.codeOf n).foldl apply f, ⟨hf, fun _ => rfl⟩, ⟨?_, ?_⟩⟩
    · intro m g hg
      by_cases hmn : m = n
      · subst hmn
        rw [Function.update_self] at hg
        rw [← Option.some.inj hg]
        exact (within_inflow houts hf).foldl_apply fun i hi dest => defined_mem_scope hn hi
      · rw [Function.update_of_ne hmn] at hg
        exact houts.within hg
    · intro m g hreach hg
      by_cases hmn : m = n
      · subst hmn
        rw [Function.update_self] at hg
        obtain ⟨path, before, hpath, hcovers, halong, -⟩ :=
          inflow_covers hacyclic hunamb hc houts hready hreach hf
        refine ⟨path, hpath, ?_⟩
        rw [← Option.some.inj hg, halong]
        exact hcovers.foldl_apply _
      · rw [Function.update_of_ne hmn] at hg
        exact houts.covers hreach hg
  mono := by
    -- The initial fact lies below all others, so it does no harm here; the only
    -- question is whether the transfer keeps the order.
    intro outs outs' n f f' g g' houts _ hrises hn hready hcomputes hcomputes'
    have hle : f.Le u f' :=
      Analysis.inflow_mono (Le.refl u) (fun _ _ _ => Le.trans)
        (joinsLeast hacyclic hunamb parameters c) hrises (fun _ _ => .inr (empty_le u))
        hcomputes.inflow hcomputes'.inflow
    rw [← Except.ok.inj (hcomputes.flow ()), ← Except.ok.inj (hcomputes'.flow ())]
    exact hle.foldl_apply (knowsSources_inflow hacyclic hunamb hc hsources houts hready hn
      hcomputes.inflow)
  rank_lt := by
    intro outs n f g houts hf houts' hle hne
    exact totalRoom_lt hacyclic (houts.within hf) (houts'.within (Function.update_self ..)) hle hne

/-! ## Copies that never fall back -/

/-- Whether the instruction, if it is a copy, has no declared type to fall back
on or takes a parameter of a declared type, of which something is known
throughout. -/
def steady (parameters : List Variable) (i : Instruction) : Bool :=
  match i.op with
  | .copy dest source =>
      source.type.isNone && dest.type.isNone || parameters.contains source && source.type.isSome
  | _ => true

/-- Something stays known of a variable with a declared type. -/
private theorem known_apply (hx : x.type ≠ none) (hf : f.get? x ≠ none) (i : Instruction) :
    (f.apply i).get? x ≠ none := by
  have hdeclared : declared x ≠ none := by simpa [declared] using hx
  rw [get?_apply]
  by_cases hdef : i.op.defined = some x
  · rw [if_pos hdef]
    unfold produced
    split
    · simp
    · simp
    · simp
    · simp [hdeclared]
    · exact hdeclared
  · rwa [if_neg hdef]

private theorem known_ofParameters (parameters : List Variable) (f : TypeFacts)
    (hx : x.type ≠ none) (h : x ∈ parameters ∨ f.get? x ≠ none) :
    (parameters.foldl (fun f x => f.assign x (declared x)) f).get? x ≠ none := by
  induction parameters generalizing f with
  | nil => exact h.resolve_left List.not_mem_nil
  | cons p parameters ih =>
      refine ih _ (or_iff_not_imp_left.2 fun hnot => ?_)
      rw [get?_assign]
      by_cases hxp : x = p
      · rw [if_pos hxp, ← hxp]
        simpa [declared] using hx
      · rw [if_neg hxp]
        exact h.resolve_left fun hmem => (List.mem_cons.1 hmem).elim hxp hnot

private theorem knowsSources_of_steady
    (hf : ∀ x ∈ parameters, x.type ≠ none → f.get? x ≠ none)
    (hcode : ∀ i ∈ code, steady parameters i = true) : f.KnowsSources code := by
  induction code generalizing f with
  | nil => trivial
  | cons i code ih =>
      rw [List.forall_mem_cons] at hcode
      refine ⟨?_, ih (fun x hx htype => known_apply htype (hf x hx htype) i) hcode.2⟩
      unfold fallsBack
      split
      · next dest source hop =>
        have hsteady := hcode.1
        simp only [steady, hop, Bool.or_eq_true, Bool.and_eq_true, Option.isNone_iff_eq_none,
          List.contains_iff_mem, Option.isSome_iff_ne_none] at hsteady
        rcases hsteady with ⟨hsource, hdest⟩ | ⟨hmem, htype⟩
        · simp [hsource, hdest]
        · rw [Option.isNone_eq_false_iff.2 (Option.isSome_iff_ne_none.2 (hf source hmem htype))]
          rfl
      · rfl

/-- Steady copies never fall back. -/
theorem sourcesKnown_of_steady (hc : c.Wired)
    (hreached : ∀ n < c.size, ∀ i ∈ c.codeOf n, steady parameters i = true)
    (hunreached : ∀ n < c.size, ¬ c.view.Reaches Cfg.entry n →
      ∀ i ∈ c.codeOf n, steady [] i = true) : SourcesKnown c parameters where
  reached := by
    intro n path hpath
    have hcode : ∀ i ∈ path.flatMap c.codeOf, steady parameters i = true := by
      intro i hi
      obtain ⟨m, hm, hi⟩ := List.mem_flatMap.1 hi
      have hlt := (View.Reaches.of_mem_path hpath hm).lt_size hc.linked hc.entry_lt
      exact hreached m hlt i hi
    refine knowsSources_of_steady (fun x hx htype => ?_) hcode
    exact known_ofParameters parameters empty htype (.inl hx)
  unreached n hn hnot :=
    knowsSources_of_steady (fun _ hx => absurd hx List.not_mem_nil) (hunreached n hn hnot)

/-! ## Convergence -/

/-- **Type inference settles** in universes without cycles and without
ambiguous supertypes, on every body none of whose copies falls back on a
declared type: some number of passes is enough, however many more are
allowed. -/
theorem solve_settles {body : Body} {config : Config} (hacyclic : u.Acyclic)
    (hunamb : u.Unambiguous) (h : Cfg.ofBody body config = .ok c)
    (hsources : SourcesKnown c body.parameters) :
    ∃ bound, ∀ config' : Config, bound ≤ config'.maxIterations →
      ∃ s, (analysis (.ofUniverse u) body.parameters c).solve c config' () = .ok s :=
  (ascent hacyclic hunamb (Cfg.build_wired h) hsources).exists_bound (plain _ _ c) ()

/-- Circles and squares are shapes. -/
def shapes : Universe :=
  .ofList [⟨"Shape", .classType, none, [], []⟩, ⟨"Circle", .classType, some "Shape", [], []⟩,
    ⟨"Square", .classType, some "Shape", [], []⟩]

/-- A circle comes in as a parameter, and squares take its place in a
loop. -/
def shapeLoop : Body where
  method := ⟨"Demo", "Shapes", "()"⟩
  parameters := [⟨"p", some "Circle", .parameter⟩]
  locals := []
  code :=
    [⟨0, .copy ⟨"x", none, .local⟩ ⟨"p", some "Circle", .parameter⟩⟩,
      ⟨1, .copy ⟨"y", none, .local⟩ ⟨"x", none, .local⟩⟩,
      ⟨2, .createObject ⟨"x", none, .local⟩ "Square" ⟨"Square", ".ctor", "()"⟩⟩,
      ⟨3, .branch .conditional 1⟩, ⟨4, .return (some ⟨"y", none, .local⟩)⟩]
  regions := []

/-- The graph of the loop. -/
def shapeLoopGraph : Cfg :=
  ⟨some shapeLoop.method, (Cfg.Layout.of shapeLoop.code shapeLoop.regions).graph .default⟩

/-- Circles and squares in a loop: the parameter is known throughout, and the
other copies have no declared types to fall back on. -/
theorem solve_settles_shapeLoop :
    shapes.Acyclic ∧ shapes.Unambiguous ∧ SourcesKnown shapeLoopGraph shapeLoop.parameters ∧
      ∃ bound, ∀ config' : Config, bound ≤ config'.maxIterations →
        ∃ s, (analysis (.ofUniverse shapes) shapeLoop.parameters shapeLoopGraph).solve
          shapeLoopGraph config' () = .ok s := by
  have hbuild : Cfg.ofBody shapeLoop .default = .ok shapeLoopGraph :=
    Cfg.build_eq_ok_iff.2 ⟨by decide, rfl⟩
  have hacyclic : shapes.Acyclic :=
    Universe.acyclic_of_rank (fun t => if t = "Shape" then 0 else 1) (by decide +kernel)
  have hunamb : shapes.Unambiguous := by
    have hparent : ∀ d ∈ shapes.toList, ∀ parent ∈ d.base.toList ++ d.interfaces,
        parent = "Shape" := by decide +kernel
    refine Universe.unambiguous_of_single_parent ?_
    rintro child p q ⟨d, hd, -, hp⟩ ⟨e, he, -, hq⟩
    rw [hparent d hd p hp, hparent e he q hq]
  have hwired := Cfg.build_wired hbuild
  have hsources : SourcesKnown shapeLoopGraph shapeLoop.parameters := by
    refine sourcesKnown_of_steady hwired (by decide +kernel) fun n hn hnot => absurd ?_ hnot
    have hlist : ∀ n < shapeLoopGraph.size,
        n ∈ shapeLoopGraph.view.reversePostorder [Cfg.entry] := by decide +kernel
    obtain ⟨r, hr, -, hreach⟩ := (View.mem_reversePostorder hwired.linked).1 (hlist n hn)
    exact List.mem_singleton.1 hr ▸ hreach
  exact ⟨hacyclic, hunamb, hsources, solve_settles hacyclic hunamb hbuild hsources⟩

/-- Two variables of different declared types swap their values in a loop. -/
def swapLoop : Body where
  method := ⟨"Demo", "Swap", "()"⟩
  parameters := []
  locals := [⟨"x", some "T", .local⟩, ⟨"y", some "U", .local⟩, ⟨"t", none, .local⟩]
  code :=
    [⟨0, .copy ⟨"t", none, .local⟩ ⟨"x", some "T", .local⟩⟩,
      ⟨1, .copy ⟨"x", some "T", .local⟩ ⟨"y", some "U", .local⟩⟩,
      ⟨2, .copy ⟨"y", some "U", .local⟩ ⟨"t", none, .local⟩⟩,
      ⟨3, .branch .unconditional 0⟩]
  regions := []

/-- **Types can follow each other around forever**, even in a universe without
types and a loop with one edge back: the first pass falls back on the
declared types of both variables, and from then on each pass swaps them. -/
theorem solve_unsettled_swapLoop :
    Universe.empty.Acyclic ∧
      ∃ c, Cfg.ofBody swapLoop .default = .ok c ∧
        ∀ config : Config,
          (analysis (.ofUniverse .empty) swapLoop.parameters c).solve c config () =
            .error (.notConverged "type-inference" config.maxIterations) := by
  refine ⟨Universe.acyclic_of_rank (fun _ => 0) (by decide), _,
    Cfg.build_eq_ok_iff.2 ⟨by decide, rfl⟩, fun config => ?_⟩
  exact Analysis.solve_error_of_returns 2 1 (by decide +kernel) config

/-- `A` and `B` have two interfaces in common, `A` by way of its base `P` and
on its own. -/
def overlap : Universe :=
  .ofList [⟨"I", .interfaceType, none, [], []⟩, ⟨"J", .interfaceType, none, [], []⟩,
    ⟨"P", .classType, none, ["I"], []⟩, ⟨"A", .classType, some "P", ["J"], []⟩,
    ⟨"B", .classType, none, ["I", "J"], []⟩]

/-- A cycle with two edges that lead backwards, entered with an `A`, a `P` and
a `B` at different nodes. -/
def overlapLoop : Body where
  method := ⟨"Demo", "Overlap", "()"⟩
  parameters := []
  locals := []
  code :=
    [⟨0, .createObject ⟨"v", none, .local⟩ "A" ⟨"A", ".ctor", "()"⟩⟩,
      ⟨1, .branch .conditional 3⟩, ⟨2, .branch .unconditional 6⟩,
      ⟨3, .createObject ⟨"v", none, .local⟩ "P" ⟨"P", ".ctor", "()"⟩⟩,
      ⟨4, .branch .conditional 1⟩,
      ⟨5, .createObject ⟨"v", none, .local⟩ "B" ⟨"B", ".ctor", "()"⟩⟩,
      ⟨6, .branch .conditional 4⟩, ⟨7, .return none⟩]
  regions := []

/-- The graph of the cycle. -/
def overlapLoopGraph : Cfg :=
  ⟨some overlapLoop.method, (Cfg.Layout.of overlapLoop.code overlapLoop.regions).graph .default⟩

/-- Copies are not the only danger.  An `A` that meets a `B` has no closest
supertype, while one that has been widened to `P` before has: the order of
the merges decides, and both results travel around the cycle. -/
theorem solve_unsettled_overlapLoop :
    overlap.Acyclic ∧ Cfg.ofBody overlapLoop .default = .ok overlapLoopGraph ∧
      SourcesKnown overlapLoopGraph overlapLoop.parameters ∧
      ∀ config : Config,
        (analysis (.ofUniverse overlap) overlapLoop.parameters overlapLoopGraph).solve
            overlapLoopGraph config () =
          .error (.notConverged "type-inference" config.maxIterations) := by
  have hacyclic : overlap.Acyclic :=
    Universe.acyclic_of_rank
      (fun t => if t = "A" then 2 else if t = "P" ∨ t = "B" then 1 else 0) (by decide +kernel)
  have hbuild : Cfg.ofBody overlapLoop .default = .ok overlapLoopGraph :=
    Cfg.build_eq_ok_iff.2 ⟨by decide, rfl⟩
  have hsteady : ∀ n < overlapLoopGraph.size, ∀ i ∈ overlapLoopGraph.codeOf n,
      steady [] i = true := by decide +kernel
  refine ⟨hacyclic, hbuild, ?_, fun config => ?_⟩
  · exact sourcesKnown_of_steady (Cfg.build_wired hbuild) hsteady fun n hn _ => hsteady n hn
  · exact Analysis.solve_error_of_returns 3 1 (by decide +kernel) config

end TypeFacts

end MethodFlow
