import Mathlib.Data.List.Induction
import MethodFlow.Body.Assembler
import MethodFlow.Proofs.Data.Folds

/-!
# Labels and the positions they stand for

A body is assembled step by step, and a label may be named before or after the
step that binds it.  What a label stands for is a matter of the steps alone:
the number of instructions that come before the first step that binds it
(`Assembler.Binds`).  An assembler holds just this, whatever the order of the
steps (`Assembler.Holds`), and what it makes of the instructions and regions
depends on nothing else.

Failures follow from one notion.  A computation `Asks` for a list of labels
when it fails exactly if one of them is not bound and reports the first such.
Computations in sequence ask for their labels in sequence, so the whole
assembly asks for the labels of the instructions and then for those of the
regions.

## Main results

* `Assembler.holds_ofSteps`: what an assembler holds after any steps.
* `Assembler.asks_finish`: in which order labels are looked up.
* `Assembler.finish_eq_ok_iff`: what the finished body consists of.
-/

namespace MethodFlow

/-! ## Drafts and what takes their place -/

/-- The labels of an instruction, in the order in which they are looked up. -/
def DraftOp.labels : DraftOp → List String
  | .plain _ => []
  | .branch _ label => [label]
  | .switch labels => labels

/-- The label of a handler, if it has one. -/
def DraftHandler.labels : DraftHandler → List String
  | .plain _ => []
  | .filterAt label => [label]

/-- The labels of a region, in the order in which they are looked up. -/
def DraftRegion.labels (r : DraftRegion) : List String :=
  r.handler.labels ++ [r.tryStart, r.tryEnd, r.handlerStart, r.handlerEnd]

/-- An operation that takes the place of a draft: every label is replaced by
an offset that it stands for, and nothing else changes. -/
inductive DraftOp.Filled (stands : String → Offset → Prop) : DraftOp → Operation → Prop where
  | plain (op : Operation) : Filled stands (.plain op) op
  | branch {kind : BranchKind} {label : String} {target : Offset} (h : stands label target) :
      Filled stands (.branch kind label) (.branch kind target)
  | switch {labels : List String} {targets : List Offset}
      (h : List.Forall₂ stands labels targets) : Filled stands (.switch labels) (.switch targets)

/-- A handler that takes the place of a draft. -/
inductive DraftHandler.Filled (stands : String → Offset → Prop) :
    DraftHandler → Handler → Prop where
  | plain (handler : Handler) : Filled stands (.plain handler) handler
  | filterAt {label : String} {start : Offset} (h : stands label start) :
      Filled stands (.filterAt label) (.filter start)

/-- A region that takes the place of a draft. -/
structure DraftRegion.Filled (stands : String → Offset → Prop) (d : DraftRegion) (r : Region) :
    Prop where
  handler : d.handler.Filled stands r.handler
  tryStart : stands d.tryStart r.tryStart
  tryEnd : stands d.tryEnd r.tryEnd
  handlerStart : stands d.handlerStart r.handlerStart
  handlerEnd : stands d.handlerEnd r.handlerEnd

namespace Assembler

/-! ## Steps -/

/-- A step in the making of a body.  Instructions without labels are added by
`emit`, whatever their operation. -/
inductive Step where
  | parameter (x : Variable)
  | «local» (x : Variable)
  | label (name : String)
  | emit (op : Operation)
  | newObject (dest : Variable) (type : TypeName)
  | branch (kind : BranchKind) (label : String)
  | switch (labels : List String)
  | region (r : DraftRegion)
  deriving DecidableEq

/-- Takes a step. -/
def apply (a : Assembler) : Step → Except Error Assembler
  | .parameter x => .ok (a.parameter x)
  | .local x => .ok (a.local x)
  | .label name => a.label name
  | .emit op => .ok (a.emit op)
  | .newObject dest type => .ok (a.newObject dest type)
  | .branch kind label => .ok (a.branch kind label)
  | .switch labels => .ok (a.switch labels)
  | .region r => .ok (a.region r)

/-- The assembler behind a step; a step that fails changes nothing. -/
def after (a : Assembler) (s : Step) : Assembler :=
  match a.apply s with
  | .ok next => next
  | .error _ => a

/-- The assembler that a sequence of steps leads to. -/
def ofSteps (method : MethodRef) (steps : List Step) : Assembler :=
  steps.foldl after (new method)

/-! ## What the steps say -/

/-- The parameter that a step declares. -/
def Step.parameter? : Step → Option Variable
  | .parameter x => some x
  | _ => none

/-- The local that a step declares. -/
def Step.local? : Step → Option Variable
  | .local x => some x
  | _ => none

/-- The instruction that a step adds. -/
def Step.op? : Step → Option DraftOp
  | .emit op => some (.plain op)
  | .newObject dest type => some (.plain (.createObject dest type ⟨type, ".ctor", "()"⟩))
  | .branch kind name => some (.branch kind name)
  | .switch names => some (.switch names)
  | _ => none

/-- The region that a step declares. -/
def Step.region? : Step → Option DraftRegion
  | .region r => some r
  | _ => none

/-- The instructions that the steps add, in order. -/
def emitted (steps : List Step) : List DraftOp := steps.filterMap Step.op?

/-- The regions that the steps declare, in order. -/
def declared (steps : List Step) : List DraftRegion := steps.filterMap Step.region?

/-- The labels that the steps name: those of branches and switches as they are
added, then those of regions as they are declared. -/
def named (steps : List Step) : List String :=
  (emitted steps).flatMap DraftOp.labels ++ (declared steps).flatMap DraftRegion.labels

/-- The label stands for this position: so many instructions are added before
the first step that binds it. -/
def Binds (steps : List Step) (name : String) (position : Nat) : Prop :=
  ∃ front back, steps = front ++ .label name :: back ∧ .label name ∉ front ∧
    position = (emitted front).length

variable {method : MethodRef} {steps : List Step} {name : String} {position : Nat} {s : Step}

theorem filterMap_concat {α β : Type} (f : α → Option β) (l : List α) (x : α) :
    (l ++ [x]).filterMap f = l.filterMap f ++ (f x).toList := by
  rw [List.filterMap_append]
  cases hx : f x <;> simp [hx]

theorem exists_binds_iff : (∃ position, Binds steps name position) ↔ .label name ∈ steps := by
  constructor
  · rintro ⟨_, front, back, rfl, -, -⟩
    exact List.mem_append_right _ List.mem_cons_self
  · intro hmem
    obtain ⟨front, back, hsteps, hfirst⟩ := List.eq_append_cons_of_mem hmem
    exact ⟨_, front, back, hsteps, hfirst, rfl⟩

theorem Binds.le (h : Binds steps name position) : position ≤ (emitted steps).length := by
  obtain ⟨front, back, rfl, -, rfl⟩ := h
  rw [emitted, emitted, List.filterMap_append, List.length_append]
  omega

/-- A label is bound by the first step that can bind it, and by no later one. -/
theorem binds_concat :
    Binds (steps ++ [s]) name position ↔
      Binds steps name position ∨
        s = .label name ∧ .label name ∉ steps ∧ position = (emitted steps).length := by
  constructor
  · rintro ⟨front, back, hsteps, hfirst, hposition⟩
    rcases List.eq_nil_or_concat' back with rfl | ⟨between, last, rfl⟩
    · obtain ⟨rfl, hs⟩ := List.append_inj' hsteps rfl
      exact .inr ⟨List.head_eq_of_cons_eq hs, hfirst, hposition⟩
    · rw [← List.cons_append, ← List.append_assoc] at hsteps
      obtain ⟨rfl, -⟩ := List.append_inj' hsteps rfl
      exact .inl ⟨front, between, rfl, hfirst, hposition⟩
  · rintro (⟨front, back, rfl, hfirst, hposition⟩ | ⟨rfl, hfirst, hposition⟩)
    · exact ⟨front, back ++ [s], by simp, hfirst, hposition⟩
    · exact ⟨steps, [], rfl, hfirst, hposition⟩

/-! ## What an assembler holds -/

variable {a : Assembler}

/-- The labels behind a step. -/
def labelsAfter (a : Assembler) : Step → SortedMap String Offset
  | .label name =>
    if a.labels.contains name then a.labels else a.labels.insert name a.nextOffset
  | _ => a.labels

/-- All that a step can do. -/
theorem after_eq (a : Assembler) (s : Step) :
    a.after s =
      { method := a.method
        parameters := a.parameters ++ s.parameter?.toList
        locals := a.locals ++ s.local?.toList
        ops := a.ops ++ s.op?.toList
        labels := a.labelsAfter s
        regions := a.regions ++ s.region?.toList } := by
  cases s with
  | label name =>
      cases hbound : a.labels.contains name <;>
        simp [after, apply, label, labelsAfter, hbound, Step.parameter?, Step.local?, Step.op?,
          Step.region?]
  | _ =>
      simp [after, apply, labelsAfter, Step.parameter?, Step.local?, Step.op?, Step.region?,
        Assembler.parameter, Assembler.local, emit, newObject, Assembler.branch,
        Assembler.switch, Assembler.region, push]

/-- The assembler holds what the steps say. -/
structure Holds (a : Assembler) (method : MethodRef) (steps : List Step) : Prop where
  method_eq : a.method = method
  parameters_eq : a.parameters = steps.filterMap Step.parameter?
  locals_eq : a.locals = steps.filterMap Step.local?
  ops_eq : a.ops = emitted steps
  regions_eq : a.regions = declared steps
  get?_labels : ∀ name offset, a.labels.get? name = some offset ↔
    ∃ position, Binds steps name position ∧ offset = offsetOf position

theorem Holds.contains_iff (h : a.Holds method steps) :
    a.labels.contains name = true ↔ .label name ∈ steps := by
  rw [SortedMap.contains, Option.isSome_iff_exists, ← exists_binds_iff]
  constructor
  · rintro ⟨offset, hoffset⟩
    obtain ⟨position, hbinds, -⟩ := (h.get?_labels name offset).1 hoffset
    exact ⟨position, hbinds⟩
  · rintro ⟨position, hbinds⟩
    exact ⟨_, (h.get?_labels name _).2 ⟨position, hbinds, rfl⟩⟩

/-- A label that is free is bound to the present position; one that is bound
stays where it is. -/
theorem Holds.get?_bindLabel (h : a.Holds method steps) (bound name : String)
    (offset : Offset) :
    (a.labelsAfter (.label bound)).get? name = some offset ↔
      ∃ position, Binds (steps ++ [.label bound]) name position ∧ offset = offsetOf position := by
  rw [labelsAfter]
  by_cases hmem : .label bound ∈ steps
  · have hold : ∀ position, ¬ (Step.label bound = .label name ∧ .label name ∉ steps ∧
        position = (emitted steps).length) := by
      rintro position ⟨heq, hfirst, -⟩
      exact hfirst (heq ▸ hmem)
    rw [if_pos (h.contains_iff.2 hmem)]
    simp only [h.get?_labels, binds_concat, hold, or_false]
  · rw [if_neg (mt h.contains_iff.1 hmem), SortedMap.get?_insert]
    by_cases hname : name = bound
    · subst hname
      have hnone : ∀ position, ¬ Binds steps name position :=
        fun position hbinds => hmem (exists_binds_iff.1 ⟨position, hbinds⟩)
      simp [binds_concat, hnone, hmem, nextOffset, h.ops_eq, eq_comm]
    · have hne : ¬ Step.label bound = .label name := by
        rintro ⟨⟩
        exact hname rfl
      simp only [hname, if_false, h.get?_labels, binds_concat, hne, false_and, or_false]

theorem Holds.get?_labelsAfter (h : a.Holds method steps) (s : Step) (name : String)
    (offset : Offset) :
    (a.labelsAfter s).get? name = some offset ↔
      ∃ position, Binds (steps ++ [s]) name position ∧ offset = offsetOf position := by
  cases s with
  | label bound => exact h.get?_bindLabel bound name offset
  | _ => simp [labelsAfter, h.get?_labels, binds_concat]

/-- **One step** keeps the assembler in agreement with the steps taken. -/
theorem Holds.after (h : a.Holds method steps) (s : Step) :
    (a.after s).Holds method (steps ++ [s]) := by
  rw [after_eq]
  refine ⟨h.method_eq, ?_, ?_, ?_, ?_, h.get?_labelsAfter s⟩
  · rw [filterMap_concat, h.parameters_eq]
  · rw [filterMap_concat, h.locals_eq]
  · rw [emitted, filterMap_concat, h.ops_eq, emitted]
  · rw [declared, filterMap_concat, h.regions_eq, declared]

theorem holds_new (method : MethodRef) : (new method).Holds method [] := by
  refine ⟨rfl, rfl, rfl, rfl, rfl, fun name offset => ?_⟩
  have hnone : ∀ position, ¬ Binds [] name position :=
    fun position hbinds => absurd (exists_binds_iff.1 ⟨position, hbinds⟩) List.not_mem_nil
  simp [new, hnone]

/-- **Any steps** leave an assembler that holds what they say. -/
theorem holds_ofSteps (method : MethodRef) (steps : List Step) :
    (ofSteps method steps).Holds method steps := by
  induction steps using List.reverseRecOn with
  | nil => exact holds_new method
  | append_singleton front s ih =>
      rw [ofSteps, List.foldl_concat]
      exact ih.after s

/-! ## Which labels a computation asks for -/

variable {α β γ : Type} {labels : SortedMap String Offset} {names more : List String}

/-- The computation looks these labels up in this order: it fails exactly when
one of them is not bound, and reports the first such. -/
def Asks (labels : SortedMap String Offset) (names : List String) (x : Except Error α) : Prop :=
  match names.find? fun name => !labels.contains name with
  | some name => x = .error (.undefinedLabel name)
  | none => ∃ a, x = .ok a

theorem asks_ok (a : α) : Asks labels [] (.ok a) := ⟨a, rfl⟩

theorem asks_resolve (labels : SortedMap String Offset) (name : String) :
    Asks labels [name] (resolve labels name) := by
  cases hget : labels.get? name with
  | none => simp [Asks, resolve, SortedMap.contains, hget]
  | some offset => simp [Asks, resolve, SortedMap.contains, hget]

theorem Asks.bind {x : Except Error α} {f : α → Except Error β} (hx : Asks labels names x)
    (hf : ∀ a, Asks labels more (f a)) : Asks labels (names ++ more) (x >>= f) := by
  unfold Asks at *
  rw [List.find?_append]
  cases hfind : names.find? fun name => !labels.contains name with
  | some name =>
      rw [hfind] at hx
      rw [hx]
      rfl
  | none =>
      rw [hfind] at hx
      obtain ⟨a, rfl⟩ := hx
      exact hf a

theorem Asks.mapM {f : α → Except Error β} {ask : α → List String}
    (hf : ∀ a, Asks labels (ask a) (f a)) (l : List α) :
    Asks labels (l.flatMap ask) (l.mapM f) := by
  induction l with
  | nil => exact asks_ok []
  | cons a rest ih =>
      rw [List.mapM_cons, List.flatMap_cons]
      refine (hf a).bind fun b => ?_
      rw [← List.append_nil (rest.flatMap ask)]
      exact ih.bind fun bs => asks_ok (b :: bs)

theorem asks_resolveOp (labels : SortedMap String Offset) (d : DraftOp) :
    Asks labels d.labels (resolveOp labels d) := by
  cases d with
  | plain op => exact asks_ok op
  | branch kind label =>
      exact (asks_resolve labels label).bind fun t => asks_ok (Operation.branch kind t)
  | switch names =>
      have hall := Asks.mapM (asks_resolve labels) names
      rw [List.flatMap_singleton'] at hall
      have hswitch : Asks labels (names ++ []) (resolveOp labels (.switch names)) :=
        hall.bind fun targets => asks_ok (Operation.switch targets)
      rwa [List.append_nil] at hswitch

theorem asks_resolveRegion (labels : SortedMap String Offset) (r : DraftRegion) :
    Asks labels r.labels (resolveRegion labels r) := by
  have hhandler : Asks labels r.handler.labels (resolveHandler labels r.handler) := by
    cases r.handler with
    | plain handler => exact asks_ok handler
    | filterAt label =>
        exact (asks_resolve labels label).bind fun t => asks_ok (Handler.filter t)
  exact hhandler.bind fun handler => (asks_resolve labels r.tryStart).bind fun tryStart =>
    (asks_resolve labels r.tryEnd).bind fun tryEnd =>
    (asks_resolve labels r.handlerStart).bind fun handlerStart =>
    (asks_resolve labels r.handlerEnd).bind fun handlerEnd =>
    asks_ok (⟨tryStart, tryEnd, handlerStart, handlerEnd, handler⟩ : Region)

/-- Instructions come before regions, each in order. -/
theorem asks_finish (a : Assembler) :
    Asks a.labels (a.ops.flatMap DraftOp.labels ++ a.regions.flatMap DraftRegion.labels)
      a.finish := by
  rw [← List.append_nil (a.regions.flatMap DraftRegion.labels)]
  exact (Asks.mapM (asks_resolveOp a.labels) a.ops).bind fun _ =>
    (Asks.mapM (asks_resolveRegion a.labels) a.regions).bind fun _ => asks_ok _

/-! ## What takes the place of the drafts -/

theorem resolve_eq_ok_iff {offset : Offset} :
    resolve labels name = .ok offset ↔ labels.get? name = some offset := by
  unfold resolve
  cases labels.get? name <;> simp

theorem resolveOp_eq_ok_iff {d : DraftOp} {op : Operation} :
    resolveOp labels d = .ok op ↔ d.Filled (fun name t => labels.get? name = some t) op := by
  cases d with
  | plain op' =>
      constructor
      · intro h
        cases h
        exact .plain op
      · intro h
        cases h
        rfl
  | branch kind label =>
      rw [resolveOp, bind_eq_ok]
      constructor
      · rintro ⟨t, ht, hop⟩
        cases hop
        exact .branch (resolve_eq_ok_iff.1 ht)
      · intro h
        cases h with
        | branch ht => exact ⟨_, resolve_eq_ok_iff.2 ht, rfl⟩
  | switch names =>
      rw [resolveOp, bind_eq_ok]
      simp only [mapM_eq_ok_iff, resolve_eq_ok_iff]
      constructor
      · rintro ⟨targets, htargets, hop⟩
        cases hop
        exact .switch htargets
      · intro h
        cases h with
        | switch htargets => exact ⟨_, htargets, rfl⟩

theorem resolveHandler_eq_ok_iff {d : DraftHandler} {handler : Handler} :
    resolveHandler labels d = .ok handler ↔
      d.Filled (fun name t => labels.get? name = some t) handler := by
  cases d with
  | plain handler' =>
      constructor
      · intro h
        cases h
        exact .plain handler
      · intro h
        cases h
        rfl
  | filterAt label =>
      rw [resolveHandler, bind_eq_ok]
      constructor
      · rintro ⟨t, ht, hhandler⟩
        cases hhandler
        exact .filterAt (resolve_eq_ok_iff.1 ht)
      · intro h
        cases h with
        | filterAt ht => exact ⟨_, resolve_eq_ok_iff.2 ht, rfl⟩

theorem resolveRegion_eq_ok_iff {d : DraftRegion} {r : Region} :
    resolveRegion labels d = .ok r ↔
      d.Filled (fun name t => labels.get? name = some t) r := by
  simp only [resolveRegion, bind_eq_ok, resolve_eq_ok_iff, resolveHandler_eq_ok_iff]
  constructor
  · rintro ⟨handler, hhandler, tryStart, hts, tryEnd, hte, handlerStart, hhs, handlerEnd, hhe, hr⟩
    cases hr
    exact ⟨hhandler, hts, hte, hhs, hhe⟩
  · rintro ⟨hhandler, hts, hte, hhs, hhe⟩
    exact ⟨_, hhandler, _, hts, _, hte, _, hhs, _, hhe, rfl⟩

/-- **The finished body**: every draft in its place is filled with what the
labels stand for. -/
theorem finish_eq_ok_iff {body : Body} :
    a.finish = .ok body ↔
      ∃ ops, List.Forall₂ (DraftOp.Filled fun name t => a.labels.get? name = some t) a.ops ops ∧
      ∃ regions, List.Forall₂ (DraftRegion.Filled fun name t => a.labels.get? name = some t)
        a.regions regions ∧
      body = ⟨a.method, a.parameters, a.locals, ops.mapIdx fun i op => ⟨offsetOf i, op⟩,
        regions⟩ := by
  simp only [finish, bind_eq_ok, mapM_eq_ok_iff, resolveOp_eq_ok_iff, resolveRegion_eq_ok_iff]
  refine exists_congr fun ops => and_congr_right fun _ => exists_congr fun regions =>
    and_congr_right fun _ => ?_
  constructor
  · intro h
    cases h
    rfl
  · rintro rfl
    rfl

end Assembler

end MethodFlow
