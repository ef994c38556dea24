import MethodFlow.Proofs.Cfg.Acceptance
import MethodFlow.Proofs.Cfg.Executions
import MethodFlow.Proofs.Flow.TypeConvergence

/-!
# Types hold along every path

Type inference is measured against a trace of the types along a path.  The
trace gives each variable the type of its last definition: a declared
parameter begins with its declared type, an allocation has the type that it
names, null is null, and a copy has whatever the trace gives its source, which
may be nothing.  It knows of no joins and of no types to fall back on.

A fact admits a trace when it says something of every traced variable, and
something wide enough.  Merging two types ends in a type that varies or in a
common supertype of both, in every hierarchy, also in one with cycles or with
several closest supertypes.  So a join admits what any of its facts admits,
although it need not be their least upper bound.

A copy of a source that is not traced is the one place where fact and trace
part: the fact falls back on a declared type, and the trace stops.

## Main results

* `Hierarchy.isSubtype_commonSupertype?`, `InferredType.Admits.merge`: a merge
  is wide enough for both sides.
* `TypeFacts.Admits.apply`, `TypeFacts.Admits.join`: what an instruction and a
  join keep.
* `TypeFacts.solve_admits`: the facts of a solution admit the trace of every
  path.
-/

namespace MethodFlow

/-! ## Traces -/

/-- What a definition makes of a variable: null, or a value of a type. -/
inductive Content where
  | null
  | object (type : TypeName)
  deriving DecidableEq, Repr

/-- The contents of the variables whose last definition says what they are. -/
abbrev TypeTrace := Variable → Option Content

namespace TypeTrace

/-- Parameters begin with their declared types. -/
def start (parameters : List Variable) : TypeTrace :=
  fun x => if x ∈ parameters then x.type.map .object else none

/-- What an operation makes of the variable `dest` that it defines. -/
def made (t : TypeTrace) (dest : Variable) : Operation → Option Content
  | .loadNull _ => some .null
  | .createObject _ type _ => some (.object type)
  | .createArray _ elementType => some (.object (elementType ++ "[]"))
  | .copy _ source => t source
  | _ => dest.type.map .object

/-- The trace behind an instruction. -/
def step (t : TypeTrace) (i : Instruction) : TypeTrace :=
  match i.op.defined with
  | some dest => Function.update t dest (t.made dest i.op)
  | none => t

end TypeTrace

/-! ## Merges -/

namespace Hierarchy

variable {h : Hierarchy} {a b m : TypeName}

theorem isSubtype_of_mem_ancestors (hm : m ∈ h.ancestors a) : h.isSubtype a m = true := by
  rw [isSubtype, Bool.or_eq_true]
  exact .inr (SortedSet.contains_iff_mem.2 hm)

/-- Of the minimal types one is chosen, if any. -/
private theorem mem_of_chosen {minimal : List TypeName} {prefers : TypeName → Bool}
    (hm : (match minimal.find? prefers with
      | some t => some t
      | none =>
        match minimal with
        | [t] => some t
        | _ => none) = some m) : m ∈ minimal := by
  split at hm
  · next t ht =>
    cases hm
    exact List.mem_of_find?_eq_some ht
  · split at hm
    · cases hm
      exact List.mem_singleton_self m
    · cases hm

/-- A closest common supertype is a common supertype, in any hierarchy. -/
theorem isSubtype_commonSupertype? (hm : h.commonSupertype? a b = some m) :
    h.isSubtype a m = true ∧ h.isSubtype b m = true := by
  unfold commonSupertype? at hm
  split at hm
  · next hab =>
    cases hm
    exact ⟨hab, isSubtype_refl h b⟩
  · split at hm
    · next hba =>
      cases hm
      exact ⟨isSubtype_refl h a, hba⟩
    · have hshared := List.mem_filter.1 (List.mem_of_mem_filter (mem_of_chosen hm))
      exact ⟨isSubtype_of_mem_ancestors (SortedSet.mem_toList.1 hshared.1),
        isSubtype_of_mem_ancestors (SortedSet.contains_iff_mem.1 hshared.2)⟩

end Hierarchy

namespace InferredType

variable {h : Hierarchy} {a b : InferredType} {content : Content}

/-- What is known of a variable is wide enough for its content. -/
def Admits (h : Hierarchy) : InferredType → Content → Prop
  | .varying, _ => True
  | .known _, .null => True
  | .null, .null => True
  | .known sup, .object type => h.isSubtype type sup = true
  | .null, .object _ => False

theorem admits_null (h : Hierarchy) (a : InferredType) : a.Admits h .null := by
  cases a <;> trivial

/-- A merge is wide enough for both sides. -/
theorem Admits.merge (hside : a.Admits h content ∨ b.Admits h content) :
    (a.merge h b).Admits h content := by
  unfold InferredType.merge
  by_cases hab : a = b
  · subst hab
    rw [if_pos rfl]
    exact hside.elim id id
  rw [if_neg hab]
  cases content with
  | null => exact admits_null h _
  | object type =>
      cases a with
      | null => cases b with
        | null => exact absurd rfl hab
        | known t => exact hside.resolve_left id
        | varying => trivial
      | known s => cases b with
        | null => exact hside.resolve_right id
        | known t =>
            simp only
            split
            · next m hm =>
              obtain ⟨hs, ht⟩ := Hierarchy.isSubtype_commonSupertype? hm
              exact hside.elim (Hierarchy.isSubtype_trans · hs) (Hierarchy.isSubtype_trans · ht)
            · trivial
        | varying => trivial
      | varying => trivial

end InferredType

/-! ## Facts and traces -/

namespace TypeFacts

variable {h : Hierarchy} {f g : TypeFacts} {t : TypeTrace} {x : Variable} {i : Instruction}
  {content : Content} {parameters : List Variable}

/-- A variable is known to be something wide enough for its content. -/
def AdmitsAt (h : Hierarchy) (f : TypeFacts) (x : Variable) (content : Content) : Prop :=
  ∃ a, f.get? x = some a ∧ a.Admits h content

/-- Every traced variable is known to be something wide enough. -/
def Admits (h : Hierarchy) (f : TypeFacts) (t : TypeTrace) : Prop :=
  ∀ x content, t x = some content → f.AdmitsAt h x content

/-- A merge forgets no variable of either side. -/
theorem AdmitsAt.merge (hside : f.AdmitsAt h x content ∨ g.AdmitsAt h x content) :
    (TypeFacts.merge h f g).AdmitsAt h x content := by
  unfold AdmitsAt at hside ⊢
  rw [get?_merge]
  cases hf : f.get? x with
  | none =>
      rw [hf] at hside
      obtain ⟨b, hb, hadmits⟩ := hside.resolve_left (by simp)
      exact ⟨b, by rw [hb]; rfl, hadmits⟩
  | some a => cases hg : g.get? x with
    | none =>
        rw [hf, hg] at hside
        obtain ⟨a', ha, hadmits⟩ := hside.resolve_right (by simp)
        exact ⟨a', ha, hadmits⟩
    | some b =>
        refine ⟨a.merge h b, rfl, .merge ?_⟩
        simpa [hf, hg] using hside

/-- A join is wide enough for each of its facts. -/
theorem AdmitsAt.join {facts : List TypeFacts} (hf : f ∈ facts) (hadmits : f.AdmitsAt h x content) :
    (TypeFacts.join h facts).AdmitsAt h x content := by
  cases facts with
  | nil => exact absurd hf List.not_mem_nil
  | cons first rest =>
      show (rest.foldl (TypeFacts.merge h) first).AdmitsAt h x content
      have hfold : ∀ (rest : List TypeFacts) (first : TypeFacts),
          first.AdmitsAt h x content ∨ (∃ g ∈ rest, g.AdmitsAt h x content) →
            (rest.foldl (TypeFacts.merge h) first).AdmitsAt h x content := by
        intro rest
        induction rest with
        | nil => exact fun first hside => hside.resolve_right (by simp)
        | cons g rest ih =>
            intro first hside
            refine ih _ ?_
            rw [List.exists_mem_cons_iff, ← or_assoc] at hside
            exact hside.imp_left .merge
      refine hfold rest first ?_
      rcases List.mem_cons.1 hf with rfl | hrest
      · exact .inl hadmits
      · exact .inr ⟨f, hrest, hadmits⟩

theorem admits_declared (dest : Variable) (hdest : dest.type.map Content.object = some content) :
    ∃ a, declared dest = some a ∧ a.Admits h content := by
  obtain ⟨type, htype, rfl⟩ := Option.map_eq_some_iff.1 hdest
  refine ⟨.known type, by rw [declared, htype, Option.map_some], ?_⟩
  exact Hierarchy.isSubtype_refl h type

/-- What an operation produces is wide enough for what it makes of the
variable.  A copy whose source is traced finds its source known. -/
theorem Admits.produced (hf : f.Admits h t) (dest : Variable) (op : Operation)
    (hmade : t.made dest op = some content) :
    ∃ a, f.produced dest op = some a ∧ a.Admits h content := by
  cases op with
  | loadNull _ =>
      cases hmade
      exact ⟨.null, rfl, trivial⟩
  | createObject _ type _ =>
      cases hmade
      exact ⟨.known type, rfl, Hierarchy.isSubtype_refl h type⟩
  | createArray _ elementType =>
      cases hmade
      exact ⟨.known (elementType ++ "[]"), rfl, Hierarchy.isSubtype_refl h _⟩
  | copy _ source =>
      obtain ⟨a, ha, hadmits⟩ := hf source content hmade
      exact ⟨a, by rw [TypeFacts.produced, ha]; rfl, hadmits⟩
  | _ => exact admits_declared dest hmade

/-- The fact behind an instruction admits the trace behind it. -/
theorem Admits.apply (hf : f.Admits h t) (i : Instruction) : (f.apply i).Admits h (t.step i) := by
  intro x content hx
  unfold AdmitsAt
  rw [get?_apply]
  unfold TypeTrace.step at hx
  cases hdefined : i.op.defined with
  | none =>
      rw [hdefined] at hx
      rw [if_neg (by simp)]
      exact hf x content hx
  | some dest =>
      rw [hdefined] at hx
      dsimp only at hx
      by_cases hdest : dest = x
      · subst hdest
        rw [Function.update_self] at hx
        rw [if_pos rfl]
        exact hf.produced dest i.op hx
      · rw [Function.update_of_ne (Ne.symm hdest)] at hx
        rw [if_neg fun heq => hdest (Option.some.inj heq)]
        exact hf x content hx

theorem Admits.block (hf : f.Admits h t) (code : List Instruction) :
    (code.foldl TypeFacts.apply f).Admits h (code.foldl TypeTrace.step t) := by
  induction code generalizing f t with
  | nil => exact hf
  | cons i code ih => exact ih (hf.apply i)

/-- Every parameter is known by its declared type. -/
theorem get?_ofParameters (parameters : List Variable) (x : Variable) :
    (ofParameters parameters).get? x = if x ∈ parameters then declared x else none := by
  have hfold : ∀ (parameters : List Variable) (f : TypeFacts),
      (parameters.foldl (fun f x => f.assign x (declared x)) f).get? x =
        if x ∈ parameters then declared x else f.get? x := by
    intro parameters
    induction parameters with
    | nil => exact fun f => rfl
    | cons p parameters ih =>
        intro f
        rw [List.foldl_cons, ih, get?_assign]
        by_cases hmem : x ∈ parameters
        · simp [hmem]
        · by_cases hp : x = p
          · simp [hp]
          · simp [hmem, hp]
  exact hfold parameters empty

theorem admits_start : (ofParameters parameters).Admits h (.start parameters) := by
  intro x content hx
  unfold TypeTrace.start at hx
  unfold AdmitsAt
  rw [get?_ofParameters]
  split at hx
  · next hmem =>
    rw [if_pos hmem]
    exact admits_declared x hx
  · cases hx

/-! ## Solutions -/

variable {c : Cfg} {n : NodeId} {path : List NodeId} {config config' : Config}
  {s : Solution Unit TypeFacts} {ins outs : NodeId → TypeFacts} {method : Option MethodRef}
  {code : List Instruction} {regions : List Region}

/-- Along an edge a fact goes on admitting what it admits. -/
theorem Admits.edge (hsolves : (analysis h parameters c).Solves c.view ins outs) (hc : c.Wired)
    {m : NodeId} (hedge : n ∈ c.view.succ m) (hout : (outs m).Admits h t) :
    (ins n).Admits h t := by
  have hpred : m ∈ c.view.pred n := hc.linked.mem_pred.2 hedge
  have horigin : n ≠ (analysis h parameters c).origin := fun heq => hc.not_to_entry (heq ▸ hedge)
  have hjoin : TypeFacts.join h ((c.view.pred n).map outs) = ins n := Except.ok.inj
    (hsolves.join n (hc.linked.target_lt hedge) horigin (List.ne_nil_of_mem hpred))
  intro x content hx
  rw [← hjoin]
  exact .join (List.mem_map_of_mem hpred) (hout x content hx)

/-- Facts that solve the equations admit the trace of every path. -/
theorem admits_path (hsolves : (analysis h parameters c).Solves c.view ins outs) (hc : c.Wired)
    (hpath : c.view.Path Cfg.entry n path) :
    (ins n).Admits h
      ((path.dropLast.flatMap c.codeOf).foldl TypeTrace.step (.start parameters)) := by
  have hrun : Execution (fun i t t' => t' = TypeTrace.step t i) (path.dropLast.flatMap c.codeOf)
      (.start parameters) _ := Execution.foldl_iff.2 rfl
  refine Cfg.arrival_induction (P := fun _ n t => (ins n).Admits h t) ?_ ?_ hpath hrun
  · have hentry : ins Cfg.entry = ofParameters parameters := hsolves.boundary
    rw [hentry]
    exact admits_start
  · rintro - m n t t' hadmits hblock hedge
    rw [Execution.foldl_iff.1 hblock]
    refine .edge hsolves hc hedge ?_
    have hout : outs m = (c.codeOf m).foldl TypeFacts.apply (ins m) :=
      (Except.ok.inj (hsolves.transfer m (hc.linked.source_lt hedge) ())).symm
    rw [hout]
    exact hadmits.block _

/-- **No type is lost on the way.**  Whatever the hierarchy, at the beginning of
every node the facts of a solution know something of each variable that the
trace of a path to the node knows: that its type varies, or, for a value of a
type, that it has a supertype of that type. -/
theorem solve_admits (hbuild : Cfg.build method code regions config = .ok c)
    (hsolve : (analysis h parameters c).solve c config' () = .ok s)
    (hpath : c.view.Path Cfg.entry n path) :
    ∃ facts, s.input? n = some facts ∧ ∀ x,
      (∀ type,
        (path.dropLast.flatMap c.codeOf).foldl TypeTrace.step (.start parameters) x =
            some (.object type) →
          facts.get? x = some .varying ∨
            ∃ sup, facts.get? x = some (.known sup) ∧ h.isSubtype type sup = true) ∧
      ((path.dropLast.flatMap c.codeOf).foldl TypeTrace.step (.start parameters) x = some .null →
        ∃ a, facts.get? x = some a) := by
  have hwired := Cfg.build_wired hbuild
  obtain ⟨ins, outs, hsolves, hfacts⟩ :=
    Analysis.exists_solves_of_solve (plain h parameters c) hwired.built hwired.exit_lt hsolve
  have hn : n < c.size := View.Reaches.lt_size hwired.linked ⟨path, hpath⟩ hwired.entry_lt
  have hadmits := admits_path hsolves hwired hpath
  refine ⟨ins n, (hfacts n hn).1, fun x => ⟨fun type hx => ?_, fun hx => ?_⟩⟩
  · obtain ⟨a, ha, hwide⟩ := hadmits x _ hx
    cases a with
    | null => exact hwide.elim
    | known sup => exact .inr ⟨sup, ha, hwide⟩
    | varying => exact .inl ha
  · obtain ⟨a, ha, -⟩ := hadmits x _ hx
    exact ⟨a, ha⟩

/-- After two rounds of the loop `y` has been a circle and is a square, which
the facts behind the loop allow for. -/
theorem solve_admits_shapeLoop :
    ∃ s, (analysis (.ofUniverse shapes) shapeLoop.parameters shapeLoopGraph).solve
        shapeLoopGraph .default () = .ok s ∧
      ([0, 2, 3, 3].flatMap shapeLoopGraph.codeOf).foldl TypeTrace.step
          (.start shapeLoop.parameters) ⟨"y", none, .local⟩ = some (.object "Square") ∧
      ∃ facts, s.input? 4 = some facts ∧
        (facts.get? ⟨"y", none, .local⟩ = some .varying ∨
          ∃ sup, facts.get? ⟨"y", none, .local⟩ = some (.known sup) ∧
            (Hierarchy.ofUniverse shapes).isSubtype "Square" sup = true) := by
  have hbuild : Cfg.ofBody shapeLoop .default = .ok shapeLoopGraph :=
    Cfg.build_eq_ok_iff.2 ⟨by decide, rfl⟩
  obtain ⟨s, hs⟩ : ∃ s, (analysis (.ofUniverse shapes) shapeLoop.parameters shapeLoopGraph).solve
      shapeLoopGraph .default () = .ok s := exists_eq_ok (by decide +kernel)
  have hpath : shapeLoopGraph.view.Path Cfg.entry 4 [0, 2, 3, 3, 4] :=
    .step (.step (.step (.step .start (by decide)) (by decide)) (by decide)) (by decide)
  have htrace : ([0, 2, 3, 3].flatMap shapeLoopGraph.codeOf).foldl TypeTrace.step
      (.start shapeLoop.parameters) ⟨"y", none, .local⟩ = some (.object "Square") := by
    decide +kernel
  obtain ⟨facts, hfacts, hadmits⟩ := solve_admits hbuild hs hpath
  exact ⟨s, hs, htrace, facts, hfacts, (hadmits _).1 "Square" htrace⟩

end TypeFacts

end MethodFlow
