import MethodFlow.Proofs.Heap.Unions

/-!
# Changes made in place

The changes of a points-to graph give a new graph or an error.  A graph that
is changed in place leaves no such choice: a change consists of steps, one of
them may fail, and the steps before it stay done.  Here the changes are written
down as such steps, in the order in which they are made, and shown to end where
the changes of `HeapGraph` end.

All steps that can fail come first, so a change that fails leaves nothing
behind.  There is one exception.  An object that is created binds the graph to
the family of its id before the id is found to be in use, and the graph stays
bound.  Its nodes, variables and edges are what they were, so it counts as the
same graph; but from then on it cannot be united with graphs of other families.

## Main results

* `HeapEdit.run_change`, `HeapEdit.run_union`: changes made step by step.
* `HeapEdit.kept_of_failed`: what a change that fails leaves behind.
-/

namespace MethodFlow

/-- A change made in place.  When it fails, what it has done by then stays
done. -/
abbrev HeapEdit := EStateM Error HeapGraph

namespace HeapEdit

open HeapGraph

variable {g h u : HeapGraph} {x : Variable} {id source target : HeapId} {f : FieldRef}
  {object : HeapObject} {e : Error}

/-! ## Steps -/

/-- Fails unless an id has a node. -/
def require (id : HeapId) : HeapEdit Unit := do
  unless (← get).contains id do throw (.heapNodeMissing id)

/-- Adds an object. -/
def add (object : HeapObject) : HeapEdit Unit := do
  match (← get).node? object.id with
  | some n => unless n.object = object do throw (.heapIdCollision object.id)
  | none => modify (·.place object)

/-- Binds the graph to the family that an id comes from. -/
def bindFamily (family : Nat) (id : HeapId) : HeapEdit Unit := do
  match (← get).family with
  | some bound => unless bound = family do throw (.heapIdCollision id)
  | none => modify fun g => { g with family := some family }

/-- Creates an object under a new id. -/
def create (ids : Allocator) (kind : ObjectKind) (type : Option TypeName)
    (offset : Option Offset) : HeapEdit Unit :=
  match ids.allocate with
  | .error e => throw e
  | .ok (id, _) => do
    bindFamily ids.family id
    if (← get).contains id then throw (.heapIdCollision id)
    add ⟨id, kind, type, offset⟩

/-- Lets a variable refer to an object: first at the object, then at the
variable. -/
def pointsTo (x : Variable) (id : HeapId) : HeapEdit Unit := do
  require id
  modify fun g => { g with nodes := g.nodes.modify id fun n => n.addVariable x }
  modify fun g => { g with bindings := g.bindings.insert x ((g.targets x).insert id) }

/-- Lets a field of an object refer to an object, at one end after the
other. -/
def pointsToField (source : HeapId) (f : FieldRef) (target : HeapId) : HeapEdit Unit := do
  require source
  require target
  modify fun g => { g with nodes := g.nodes.modify source fun n => n.addTarget f target }
  modify fun g => { g with nodes := g.nodes.modify target fun n => n.addSource f source }

/-- Adds the objects of another graph. -/
def absorbObjects (h : HeapGraph) : HeapEdit Unit := h.nodes.values.forM fun n => add n.object

/-- Makes a variable known and lets it refer to some objects. -/
def absorbVariable (x : Variable) (ids : SortedSet HeapId) : HeapEdit Unit := do
  modify (·.know x)
  ids.toList.forM (pointsTo x)

/-- Adds the variables of another graph and what they refer to. -/
def absorbVariables (h : HeapGraph) : HeapEdit Unit :=
  h.bindings.toList.forM fun e => absorbVariable e.1 e.2

/-- Adds the edges of fields of another graph. -/
def absorbFields (h : HeapGraph) : HeapEdit Unit :=
  h.nodes.values.forM fun n =>
    n.targets.toList.forM fun e => e.2.toList.forM (pointsToField n.object.id e.1)

/-- Adds everything that another graph holds. -/
def union (h : HeapGraph) : HeapEdit Unit := do
  match (← get).collision? h with
  | some id => throw (.heapIdCollision id)
  | none =>
    modify fun g => { g with family := g.family.or h.family }
    absorbObjects h
    absorbVariables h
    absorbFields h

/-- The steps of a change. -/
def change : Change → HeapEdit Unit
  | .add node => add node.object
  | .create ids kind type offset => create ids kind type offset
  | .pointsTo x id => pointsTo x id
  | .pointsToField source f target => pointsToField source f target
  | .detach x => modify (·.detach x)
  | .forget x => modify (·.forget x)

/-! ## Where changes end -/

/-- The end of a change that is made as a whole or not at all. -/
def whole (g : HeapGraph) : Except Error HeapGraph → EStateM.Result Error HeapGraph Unit
  | .ok u => .ok () u
  | .error e => .error e g

/-- The end of the creation of an object. -/
def created (made : Creation) : EStateM.Result Error HeapGraph Unit :=
  match made.result with
  | .ok _ => .ok () made.graph
  | .error e => .error e made.graph

/-- The end of a change. -/
def outcome (g : HeapGraph) : Change → EStateM.Result Error HeapGraph Unit
  | .add node => whole g (g.addObject node.object)
  | .create ids kind type offset => created (g.create ids kind type offset)
  | .pointsTo x id => whole g (g.pointsTo x id)
  | .pointsToField source f target => whole g (g.pointsToField source f target)
  | .detach x => .ok () (g.detach x)
  | .forget x => .ok () (g.forget x)

theorem eq_of_whole {r : Except Error HeapGraph} (hfailed : whole g r = .error e u) : u = g := by
  cases r with
  | ok w => cases hfailed
  | error e' =>
      cases hfailed
      rfl

theorem run_require :
    (require id).run g = if g.contains id then .ok () g else .error (.heapNodeMissing id) g := by
  cases hid : g.contains id <;> simp [require, hid]

theorem run_add : (add object).run g = whole g (g.addObject object) := by
  cases hnode : g.node? object.id with
  | none => simp [add, addObject, hnode, whole]
  | some n => by_cases hsame : n.object = object <;> simp [add, addObject, hnode, hsame, whole]

theorem run_pointsTo : (pointsTo x id).run g = whole g (g.pointsTo x id) := by
  cases hid : g.contains id with
  | false => simp [pointsTo, HeapGraph.pointsTo, run_require, hid, whole]
  | true => simp [pointsTo, HeapGraph.pointsTo, run_require, hid, whole, attach, targets]

theorem run_pointsToField :
    (pointsToField source f target).run g = whole g (g.pointsToField source f target) := by
  cases hsource : g.contains source with
  | false => simp [pointsToField, HeapGraph.pointsToField, run_require, hsource, whole]
  | true =>
      cases htarget : g.contains target <;>
        simp [pointsToField, HeapGraph.pointsToField, run_require, hsource, htarget, whole,
          attachField]

theorem run_bindFamily (family : Nat) :
    (bindFamily family id).run g = match g.bind? family with
      | some bound => .ok () bound
      | none => .error (.heapIdCollision id) g := by
  cases hfamily : g.family with
  | none => simp [bindFamily, bind?, hfamily]
  | some bound =>
      by_cases hsame : bound = family <;> simp [bindFamily, bind?, hfamily, hsame]

theorem run_create (ids : Allocator) (kind : ObjectKind) (type : Option TypeName)
    (offset : Option Offset) :
    (create ids kind type offset).run g = created (g.create ids kind type offset) := by
  unfold create HeapGraph.create Allocator.allocate
  by_cases hnext : ids.next < HeapId.max
  · simp only [if_pos hnext, EStateM.run_bind, run_bindFamily]
    cases g.bind? ids.family with
    | none => rfl
    | some bound =>
        cases hid : bound.contains ids.next with
        | true => simp [hid, created]
        | false =>
            have hnone : bound.node? ids.next = none :=
              Option.map_eq_none_iff.1 (contains_eq_false_iff.1 hid)
            simp [hid, created, run_add, addObject, hnone, whole]
  · simp only [if_neg hnext]
    rfl

/-- The steps of a change end where the change ends. -/
theorem run_change (c : Change) : (change c).run g = outcome g c := by
  cases c with
  | add node => exact run_add
  | create ids kind type offset => exact run_create ids kind type offset
  | pointsTo x id => exact run_pointsTo
  | pointsToField source f target => exact run_pointsToField
  | detach x => rfl
  | forget x => rfl

/-- Steps that succeed one by one succeed one after the other. -/
theorem run_forM {α : Type} {l : List α} {edit : α → HeapEdit Unit}
    {next : HeapGraph → α → Except Error HeapGraph}
    (hstep : ∀ a ∈ l, ∀ g u, next g a = .ok u → (edit a).run g = .ok () u)
    (hu : l.foldlM next g = .ok u) : (l.forM edit).run g = .ok () u := by
  induction l generalizing g with
  | nil =>
      cases hu
      rfl
  | cons a rest ih =>
      rw [List.foldlM_cons] at hu
      obtain ⟨w, hw, hu⟩ := bind_eq_ok.1 hu
      show (edit a >>= fun _ => rest.forM edit).run g = _
      rw [EStateM.run_bind, hstep a List.mem_cons_self g w hw]
      exact ih (fun b hb => hstep b (List.mem_cons_of_mem a hb)) hu

private theorem run_of_whole {edit : HeapEdit Unit} {r : Except Error HeapGraph}
    (hrun : edit.run g = whole g r) (hu : r = .ok u) : edit.run g = .ok () u := by
  rw [hrun, hu]
  rfl

private theorem run_absorbVariable {ids : SortedSet HeapId}
    (hu : ids.toList.foldlM (fun g id => g.pointsTo x id) (g.know x) = .ok u) :
    (absorbVariable x ids).run g = .ok () u := by
  unfold absorbVariable
  rw [EStateM.run_bind, EStateM.run_modify]
  exact run_forM (fun _ _ _ _ => run_of_whole run_pointsTo) hu

private theorem run_absorbFields
    (hu : h.nodes.values.foldlM (fun g n => n.targets.toList.foldlM
      (fun g e => e.2.toList.foldlM (fun g t => g.pointsToField n.object.id e.1 t) g) g) g =
        .ok u) : (absorbFields h).run g = .ok () u := by
  refine run_forM (fun n _ b b' hb => ?_) hu
  refine run_forM (fun e _ c c' hc => ?_) hb
  exact run_forM (fun _ _ _ _ => run_of_whole run_pointsToField) hc

/-- The steps of a union end where the union ends: behind the check none of
them fails. -/
theorem run_union (hg : g.Intact) (hh : h.Intact) : (union h).run g = whole g (g.union h) := by
  cases hclash : g.collision? h with
  | some id => simp [union, HeapGraph.union, hclash, whole]
  | none =>
      obtain ⟨u, hu⟩ := exists_union_iff.2 (collision?_eq_none_iff.1 hclash)
      have hsteps : g.unionStepwise h = .ok u := (unionStepwise_eq hg hh).trans hu
      rw [unionStepwise, hclash] at hsteps
      obtain ⟨objects, hobjects, hsteps⟩ := bind_eq_ok.1 hsteps
      obtain ⟨held, hheld, hfields⟩ := bind_eq_ok.1 hsteps
      have hadds : (absorbObjects h).run { g with family := g.family.or h.family } =
          .ok () objects := run_forM (fun _ _ _ _ => run_of_whole run_add) hobjects
      have hholds : (absorbVariables h).run objects = .ok () held :=
        run_forM (fun _ _ _ _ => run_absorbVariable) hheld
      simp [union, hclash, hadds, hholds, run_absorbFields hfields, hu, whole]

/-! ## What a failure leaves behind -/

/-- An object is to be created under an id that is in use, in a graph that is
not bound yet. -/
def BindsInVain (g : HeapGraph) : Change → Prop
  | .create ids _ _ _ => g.family = none ∧ ids.next < HeapId.max ∧ g.contains ids.next = true
  | _ => False

/-- The ways in which a creation fails: there are no ids left, the graph is
bound to another family, or the id is in use. -/
private theorem cases_of_create {ids : Allocator} {kind : ObjectKind} {type : Option TypeName}
    {offset : Option Offset} (hfailed : created (g.create ids kind type offset) = .error e u) :
    (u = g ∧ ¬ BindsInVain g (.create ids kind type offset)) ∨
      (u = { g with family := some ids.family } ∧
        BindsInVain g (.create ids kind type offset)) := by
  unfold HeapGraph.create Allocator.allocate at hfailed
  by_cases hnext : ids.next < HeapId.max
  · simp only [if_pos hnext, bind?] at hfailed
    cases hfamily : g.family with
    | none =>
        simp only [hfamily] at hfailed
        split at hfailed
        · next hid =>
          cases hfailed
          exact .inr ⟨rfl, hfamily, hnext, hid⟩
        · cases hfailed
    | some bound =>
        have hbound : ¬ BindsInVain g (.create ids kind type offset) := by
          simp [BindsInVain, hfamily]
        by_cases hsame : bound = ids.family
        · simp only [hfamily, if_pos hsame] at hfailed
          split at hfailed
          · cases hfailed
            exact .inl ⟨rfl, hbound⟩
          · cases hfailed
        · simp only [hfamily, if_neg hsame] at hfailed
          cases hfailed
          exact .inl ⟨rfl, hbound⟩
  · rw [if_neg hnext] at hfailed
    cases hfailed
    exact .inl ⟨rfl, fun hvain => hnext hvain.2.1⟩

/-- **A change that fails leaves the graph as it was.**  The one exception is
the creation of an object under an id that is in use, in a graph that is not
bound yet: it leaves the nodes, variables and edges alone, but the graph is
bound.  Changes are made step by step here, and what was done before a failing
step stays done. -/
theorem kept_of_failed (hg : g.Built) :
    (∀ c, (change c).run g = outcome g c) ∧
      (∀ h, h.Built → (union h).run g = whole g (g.union h)) ∧
      (∀ c e u, (change c).run g = .error e u →
        u.nodes = g.nodes ∧ u.bindings = g.bindings ∧
          (u.family = g.family ↔ ¬ BindsInVain g c)) ∧
      ∀ h e u, h.Built → (union h).run g = .error e u → u = g := by
  have hunion : ∀ h, h.Built → (union h).run g = whole g (g.union h) :=
    fun h hh => run_union hg.intact hh.intact
  refine ⟨run_change, hunion, fun c e u hfailed => ?_, fun h e u hh hfailed => ?_⟩
  · rw [run_change] at hfailed
    cases c with
    | create ids kind type offset =>
        rcases cases_of_create hfailed with ⟨rfl, hvain⟩ | ⟨rfl, hvain⟩
        · exact ⟨rfl, rfl, by simp [hvain]⟩
        · exact ⟨rfl, rfl, by simp [hvain, hvain.1]⟩
    | add node =>
        rw [eq_of_whole hfailed]
        exact ⟨rfl, rfl, by simp [BindsInVain]⟩
    | pointsTo x id =>
        rw [eq_of_whole hfailed]
        exact ⟨rfl, rfl, by simp [BindsInVain]⟩
    | pointsToField source f target =>
        rw [eq_of_whole hfailed]
        exact ⟨rfl, rfl, by simp [BindsInVain]⟩
    | detach x => cases hfailed
    | forget x => cases hfailed
  · rw [hunion h hh] at hfailed
    exact eq_of_whole hfailed

/-- A variable cannot refer to an object that is not there, nor the list be
united with a graph of another family; the graph stays as it was. -/
theorem kept_of_failed_listHead :
    listHead.Built ∧ (ofFamily 1).Built ∧
      (∃ e u, (change (.pointsTo ⟨"x", none, .local⟩ 7)).run listHead = .error e u ∧
        u.family = listHead.family) ∧
      ∃ e u, (union (ofFamily 1)).run listHead = .error e u ∧ u = listHead := by
  have hlist : listHead.Built := Built.foldl .empty _
  have hother : (ofFamily 1).Built := .ofFamily 1
  obtain ⟨hchange, hunion, hkept, hsame⟩ := kept_of_failed hlist
  have hmissing : (change (.pointsTo ⟨"x", none, .local⟩ 7)).run listHead =
      .error (.heapNodeMissing 7) listHead := by
    rw [hchange, outcome, HeapGraph.pointsTo, if_neg (by decide +kernel)]
    rfl
  have hclash : (union (ofFamily 1)).run listHead = .error (.heapIdCollision 0) listHead := by
    have hid : listHead.collision? (ofFamily 1) = some 0 := by decide +kernel
    rw [hunion _ hother, HeapGraph.union, hid]
    rfl
  exact ⟨hlist, hother, ⟨_, _, hmissing, (hkept _ _ _ hmissing).2.2.2 id⟩,
    ⟨_, _, hclash, hsame _ _ _ hother hclash⟩⟩

/-- An object under the first id that any allocator hands out, in a graph that
is not bound. -/
def numbered : HeapGraph := after .empty (.add (.bare ⟨1, .object, none, some 0⟩))

/-- The creation of an object fails and binds the graph.  A graph of another
family could have been taken in before, but not any more. -/
theorem failed_creation_binds :
    numbered.Built ∧ numbered.family = none ∧
      (∃ u, (change (.create (.new 0) .object none none)).run numbered =
          .error (.heapIdCollision 1) u ∧ u.family = some 0 ∧
        ∃ e, u.union (ofFamily 1) = .error e) ∧
      ∃ u, numbered.union (ofFamily 1) = .ok u := by
  have hbuilt : numbered.Built := .change .empty _
  have hfailed : (change (.create (.new 0) .object none none)).run numbered =
      .error (.heapIdCollision 1) { numbered with family := some 0 } := by
    rw [run_change]
    rfl
  refine ⟨hbuilt, rfl, ⟨_, hfailed, rfl, exists_error_iff.2 fun hfits => ?_⟩, ?_⟩
  · exact absurd (hfits.family 0 1 rfl rfl) (by decide)
  · exact exists_union_iff.2 (collision?_eq_none_iff.1 (by decide +kernel))

end HeapEdit

end MethodFlow
