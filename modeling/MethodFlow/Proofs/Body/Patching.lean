import Mathlib.Algebra.Group.Nat.Defs
import Mathlib.Data.List.Forall2
import MethodFlow.Proofs.Body.Labels

/-!
# Branch targets patched in place

A body can also be assembled without drafts.  Instructions are written down
complete, a branch or switch with 0 for every target, and beside them a list
of fixups remembers by index which instructions wait for which labels.  In the
end the fixups are worked off one after the other.  This `Patchwork` could go
wrong in ways that drafts cannot: a fixup may lead to no instruction, to one
that does not branch, or bring no target for a branch.

It never does.  A patchwork is at every moment the picture of an assembler
(`Patchwork.ofDraft`): its fixups are those of the drafts, each at the index
of its own placeholder.  Working them off keeps a finished front and a back of
placeholders, and the next fixup always concerns the first placeholder that
waits.  So patching and filling drafts give the same body or the same failure,
and the labels may be bound in any order.

## Main results

* `Patchwork.ofSteps_eq`: any steps make the same of both.
* `Patchwork.foldlM_patch`: working off the fixups fills the drafts.
* `Assembler.finish_exact`: when a body can be finished, what it consists of,
  and which label is reported otherwise.
-/

namespace MethodFlow

open Assembler

/-- Labels that the instruction at an index waits for. -/
structure Fixup where
  index : Nat
  labels : List String

/-- A body with placeholders for targets, and what is to be put there. -/
structure Patchwork where
  body : Body
  labels : SortedMap String Offset
  fixups : List Fixup
  regions : List DraftRegion

namespace Patchwork

/-! ## Steps -/

def new (method : MethodRef) : Patchwork := ⟨⟨method, [], [], [], []⟩, .empty, [], []⟩

/-- The offset that the next instruction gets. -/
def nextOffset (p : Patchwork) : Offset := offsetOf p.body.code.length

/-- Adds an instruction. -/
def emit (p : Patchwork) (op : Operation) : Patchwork :=
  { p with body := { p.body with code := p.body.code ++ [⟨p.nextOffset, op⟩] } }

/-- Lets the next instruction wait for labels. -/
def await (p : Patchwork) (labels : List String) : Patchwork :=
  { p with fixups := p.fixups ++ [⟨p.body.code.length, labels⟩] }

/-- Takes a step. -/
def apply (p : Patchwork) : Step → Except Error Patchwork
  | .parameter x => .ok { p with body := { p.body with parameters := p.body.parameters ++ [x] } }
  | .local x => .ok { p with body := { p.body with locals := p.body.locals ++ [x] } }
  | .label name =>
    if p.labels.contains name then .error (.duplicateLabel name)
    else .ok { p with labels := p.labels.insert name p.nextOffset }
  | .emit op => .ok (p.emit op)
  | .newObject dest type => .ok (p.emit (.createObject dest type ⟨type, ".ctor", "()"⟩))
  | .branch kind name => .ok ((p.await [name]).emit (.branch kind 0))
  | .switch names => .ok ((p.await names).emit (.switch (names.map fun _ => 0)))
  | .region r => .ok { p with regions := p.regions ++ [r] }

/-- The patchwork behind a step; a step that fails changes nothing. -/
def after (p : Patchwork) (s : Step) : Patchwork :=
  match p.apply s with
  | .ok next => next
  | .error _ => p

/-- The patchwork that a sequence of steps leads to. -/
def ofSteps (method : MethodRef) (steps : List Step) : Patchwork :=
  steps.foldl after (new method)

/-! ## Working off the fixups -/

/-- Puts the offsets of a fixup's labels into the instruction that waits for
them. -/
def patch (labels : SortedMap String Offset) (code : List Instruction) (f : Fixup) :
    Except Error (List Instruction) := do
  let targets ← f.labels.mapM (resolve labels)
  match code[f.index]? with
  | none => .error (.malformed (.other s!"Fixup refers to missing instruction {f.index}"))
  | some x =>
    match x.op, targets with
    | .branch kind _, target :: _ => .ok (code.set f.index ⟨x.offset, .branch kind target⟩)
    | .branch _ _, [] =>
      .error (.malformed (.other "index out of bounds: the len is 0 but the index is 0"))
    | .switch _, targets => .ok (code.set f.index ⟨x.offset, .switch targets⟩)
    | _, _ => .error (.malformed (.other s!"Fixup refers to non-branch instruction {x.offset}"))

/-- Adds a region with its labels replaced. -/
def addRegion (labels : SortedMap String Offset) (regions : List Region) (r : DraftRegion) :
    Except Error (List Region) := do
  return regions ++ [← resolveRegion labels r]

/-- The finished body. -/
def finish (p : Patchwork) : Except Error Body := do
  let code ← p.fixups.foldlM (patch p.labels) p.body.code
  let regions ← p.regions.foldlM (addRegion p.labels) p.body.regions
  return { p.body with code, regions }

/-! ## The picture of an assembler -/

/-- What stands in the code in place of a draft. -/
def placeholder : DraftOp → Operation
  | .plain op => op
  | .branch kind _ => .branch kind 0
  | .switch names => .switch (names.map fun _ => 0)

/-- What is remembered of a draft at an index. -/
def fixup? (index : Nat) : DraftOp → Option Fixup
  | .plain _ => none
  | .branch _ name => some ⟨index, [name]⟩
  | .switch names => some ⟨index, names⟩

/-- Operations as instructions, the first of which has the given index. -/
def numbered (index : Nat) : List Operation → List Instruction
  | [] => []
  | op :: rest => ⟨offsetOf index, op⟩ :: numbered (index + 1) rest

/-- The fixups of drafts, the first of which has the given index. -/
def fixupsFrom (index : Nat) : List DraftOp → List Fixup
  | [] => []
  | d :: rest => (fixup? index d).toList ++ fixupsFrom (index + 1) rest

/-- The patchwork that corresponds to an assembler. -/
def ofDraft (a : Assembler) : Patchwork :=
  { body := ⟨a.method, a.parameters, a.locals, numbered 0 (a.ops.map placeholder), []⟩
    labels := a.labels
    fixups := fixupsFrom 0 a.ops
    regions := a.regions }

theorem length_numbered (index : Nat) (ops : List Operation) :
    (numbered index ops).length = ops.length := by
  induction ops generalizing index with
  | nil => rfl
  | cons op rest ih => rw [numbered, List.length_cons, ih, List.length_cons]

theorem numbered_concat (index : Nat) (ops : List Operation) (op : Operation) :
    numbered index (ops ++ [op]) = numbered index ops ++ [⟨offsetOf (index + ops.length), op⟩] := by
  induction ops generalizing index with
  | nil => rfl
  | cons first rest ih =>
      rw [List.cons_append, numbered, ih, numbered, List.cons_append, List.length_cons,
        show index + 1 + rest.length = index + (rest.length + 1) by omega]

theorem numbered_eq_mapIdx (index : Nat) (ops : List Operation) :
    numbered index ops = ops.mapIdx fun i op => ⟨offsetOf (index + i), op⟩ := by
  induction ops generalizing index with
  | nil => rfl
  | cons first rest ih =>
      rw [numbered, ih, List.mapIdx_cons]
      simp only [Nat.add_zero, Nat.add_assoc, Nat.add_comm 1]

theorem fixupsFrom_concat (index : Nat) (ops : List DraftOp) (d : DraftOp) :
    fixupsFrom index (ops ++ [d]) =
      fixupsFrom index ops ++ (fixup? (index + ops.length) d).toList := by
  induction ops generalizing index with
  | nil => exact List.append_nil _
  | cons first rest ih =>
      rw [List.cons_append, fixupsFrom, ih, fixupsFrom, List.append_assoc, List.length_cons,
        show index + 1 + rest.length = index + (rest.length + 1) by omega]

theorem nextOffset_ofDraft (a : Assembler) : (ofDraft a).nextOffset = a.nextOffset := by
  simp [nextOffset, ofDraft, length_numbered, Assembler.nextOffset]

/-- Adding a draft adds its placeholder and its fixup, which agree on the
index. -/
theorem ofDraft_push (a : Assembler) (d : DraftOp) :
    ofDraft (a.push d) =
      emit { ofDraft a with fixups := (ofDraft a).fixups ++ (fixup? a.ops.length d).toList }
        (placeholder d) := by
  have hoffset : offsetOf (numbered 0 (a.ops.map placeholder)).length = offsetOf a.ops.length := by
    rw [length_numbered, List.length_map]
  simp only [ofDraft, push, emit, nextOffset, List.map_append, List.map_singleton,
    numbered_concat, fixupsFrom_concat, List.length_map, Nat.zero_add, hoffset]

/-- **One step** does the same to an assembler and to its picture. -/
theorem after_ofDraft (a : Assembler) (s : Step) : (ofDraft a).after s = ofDraft (a.after s) := by
  have hlength : (ofDraft a).body.code.length = a.ops.length := by
    simp [ofDraft, length_numbered]
  cases s with
  | parameter x => rfl
  | «local» x => rfl
  | region r => rfl
  | label name =>
      cases hbound : a.labels.contains name <;>
        simp [after, apply, Assembler.after, Assembler.apply, Assembler.label, ofDraft, hbound,
          ← nextOffset_ofDraft]
  | emit op =>
      refine ((ofDraft_push a (.plain op)).trans ?_).symm
      simp [fixup?, placeholder, after, apply]
  | newObject dest type =>
      refine ((ofDraft_push a (.plain (.createObject dest type ⟨type, ".ctor", "()"⟩))).trans
        ?_).symm
      simp [fixup?, placeholder, after, apply]
  | branch kind name =>
      refine ((ofDraft_push a (.branch kind name)).trans ?_).symm
      simp [fixup?, placeholder, after, apply, await, hlength]
  | switch names =>
      refine ((ofDraft_push a (.switch names)).trans ?_).symm
      simp [fixup?, placeholder, after, apply, await, hlength]

/-- **Any steps** make the same of both. -/
theorem ofSteps_eq (method : MethodRef) (steps : List Step) :
    ofSteps method steps = ofDraft (Assembler.ofSteps method steps) := by
  induction steps using List.reverseRecOn with
  | nil => rfl
  | append_singleton front s ih =>
      rw [Assembler.ofSteps, ofSteps, List.foldl_concat, List.foldl_concat]
      rw [ofSteps, Assembler.ofSteps] at ih
      rw [ih, after_ofDraft]

/-! ## Fixups fill drafts -/

variable {labels : SortedMap String Offset}

/-- The fixup of a draft, if it has one, fills the placeholder of that draft
and touches no other instruction. -/
theorem foldlM_patch_fixup? (labels : SortedMap String Offset) (d : DraftOp)
    (front back : List Instruction) (offset : Offset) :
    (fixup? front.length d).toList.foldlM (patch labels) (front ++ ⟨offset, placeholder d⟩ :: back) =
      (resolveOp labels d).map fun op => front ++ ⟨offset, op⟩ :: back := by
  cases d with
  | plain op => rfl
  | branch kind name =>
      cases hname : resolve labels name <;>
        simp [fixup?, placeholder, patch, resolveOp, hname, Except.map, bind, Except.bind, pure,
          Except.pure]
  | switch names =>
      cases hnames : names.mapM (resolve labels) <;>
        simp [fixup?, placeholder, patch, resolveOp, hnames, Except.map, bind, Except.bind, pure,
          Except.pure]

/-- **Working off the fixups** fills the drafts.  The induction is on the
drafts that still wait; in front of them everything is finished, so the first
fixup leads right behind the finished instructions. -/
theorem foldlM_patch (labels : SortedMap String Offset) (rest : List DraftOp)
    (front : List Instruction) :
    (fixupsFrom front.length rest).foldlM (patch labels)
        (front ++ numbered front.length (rest.map placeholder)) =
      (rest.mapM (resolveOp labels)).map fun ops => front ++ numbered front.length ops := by
  induction rest generalizing front with
  | nil => rfl
  | cons d rest ih =>
      rw [fixupsFrom, List.foldlM_append, List.map_cons, numbered, foldlM_patch_fixup?,
        List.mapM_cons]
      cases hd : resolveOp labels d with
      | error e => rfl
      | ok op =>
          have hnext := ih (front ++ [⟨offsetOf front.length, op⟩])
          rw [List.length_append, List.length_singleton, List.append_assoc,
            List.singleton_append] at hnext
          show (fixupsFrom (front.length + 1) rest).foldlM (patch labels)
            (front ++ ⟨offsetOf front.length, op⟩ ::
              numbered (front.length + 1) (rest.map placeholder)) = _
          rw [hnext]
          cases rest.mapM (resolveOp labels) with
          | error e => rfl
          | ok ops => simp [Except.map, bind, Except.bind, pure, Except.pure, numbered]

theorem foldlM_addRegion (labels : SortedMap String Offset) (regions : List Region)
    (drafts : List DraftRegion) :
    drafts.foldlM (addRegion labels) regions =
      (drafts.mapM (resolveRegion labels)).map (regions ++ ·) := by
  induction drafts generalizing regions with
  | nil =>
      rw [List.foldlM_nil, List.mapM_nil]
      exact congrArg Except.ok (List.append_nil regions).symm
  | cons d rest ih =>
      rw [List.foldlM_cons, List.mapM_cons]
      unfold addRegion
      cases hd : resolveRegion labels d with
      | error e => rfl
      | ok r =>
          show rest.foldlM (addRegion labels) (regions ++ [r]) = _
          rw [ih]
          cases rest.mapM (resolveRegion labels) with
          | error e => rfl
          | ok rs => simp [Except.map, bind, Except.bind, pure, Except.pure]

/-- Patching gives what filling the drafts gives, failures included. -/
theorem finish_ofDraft (a : Assembler) : (ofDraft a).finish = a.finish := by
  have hcode := foldlM_patch a.labels a.ops []
  have hregions := foldlM_addRegion a.labels [] a.regions
  simp only [List.length_nil, List.nil_append] at hcode hregions
  simp only [finish, ofDraft, Assembler.finish]
  rw [hcode, hregions]
  cases a.ops.mapM (resolveOp a.labels) with
  | error e => rfl
  | ok ops =>
      cases a.regions.mapM (resolveRegion a.labels) with
      | error e => rfl
      | ok regions =>
          simp [Except.map, bind, Except.bind, pure, Except.pure, numbered_eq_mapIdx]

end Patchwork

/-! ## The finished body -/

namespace Assembler

variable {method : MethodRef} {steps : List Step} {a : Assembler} {body : Body}

/-- The body that the steps describe: instruction `i` has offset `i`, every
draft is filled with the positions of its labels, and everything keeps its
order. -/
structure Describes (method : MethodRef) (steps : List Step) (body : Body) : Prop where
  method_eq : body.method = method
  parameters_eq : body.parameters = steps.filterMap Step.parameter?
  locals_eq : body.locals = steps.filterMap Step.local?
  offset_eq : ∀ (i : Nat) (x : Instruction), body.code[i]? = some x → x.offset = i
  code_filled :
    List.Forall₂ (DraftOp.Filled (Binds steps)) (emitted steps) (body.code.map Instruction.op)
  regions_filled :
    List.Forall₂ (DraftRegion.Filled (Binds steps)) (declared steps) body.regions

theorem offsetOf_eq {n : Nat} (hn : n < 2 ^ 32) : offsetOf n = n := by
  have hmax : n ≤ Offset.max := by
    unfold Offset.max
    omega
  exact Nat.min_eq_left hmax

/-- As long as offsets suffice, labels stand for positions. -/
theorem Holds.get?_labels_eq (h : a.Holds method steps) (hsize : (emitted steps).length < 2 ^ 32) :
    (fun name offset => a.labels.get? name = some offset) = Binds steps := by
  funext name offset
  refine propext ((h.get?_labels name offset).trans ⟨?_, fun hbinds => ?_⟩)
  · rintro ⟨position, hbinds, rfl⟩
    rwa [offsetOf_eq (Nat.lt_of_le_of_lt hbinds.le hsize)]
  · exact ⟨offset, hbinds, (offsetOf_eq (Nat.lt_of_le_of_lt hbinds.le hsize)).symm⟩

theorem describes_of_finish (h : a.Holds method steps) (hsize : (emitted steps).length < 2 ^ 32)
    (hbody : a.finish = .ok body) : Describes method steps body := by
  rw [finish_eq_ok_iff, h.get?_labels_eq hsize, h.ops_eq, h.regions_eq] at hbody
  obtain ⟨ops, hops, regions, hregions, rfl⟩ := hbody
  refine ⟨h.method_eq, h.parameters_eq, h.locals_eq, fun i x hx => ?_, ?_, hregions⟩
  · rw [List.getElem?_mapIdx] at hx
    obtain ⟨op, hop, rfl⟩ := Option.map_eq_some_iff.1 hx
    have hi : i < ops.length := (List.getElem?_eq_some_iff.1 hop).1
    rw [← hops.length_eq] at hi
    exact offsetOf_eq (by omega)
  · have hmap : (ops.mapIdx fun i op => (⟨offsetOf i, op⟩ : Instruction)).map Instruction.op =
        ops := by
      refine List.ext_getElem? fun i => ?_
      simp [Function.comp_def]
    rw [hmap]
    exact hops

/-- **Labels may be bound in any order**: a body can be finished exactly when
every label that is named is bound somewhere; it is then the body that the
steps describe.  Otherwise the first label that is not bound is reported, and
nothing else can go wrong, with targets patched in place as well. -/
theorem finish_exact (method : MethodRef) (steps : List Step)
    (hsize : (emitted steps).length < 2 ^ 32) :
    ((∃ body, (ofSteps method steps).finish = .ok body) ↔
        ∀ name ∈ named steps, .label name ∈ steps) ∧
      (∀ body, (ofSteps method steps).finish = .ok body → Describes method steps body) ∧
      (∀ e, (ofSteps method steps).finish = .error e ↔
        ∃ name, ((named steps).find? fun name => .label name ∉ steps) = some name ∧
          e = .undefinedLabel name) ∧
      (Patchwork.ofSteps method steps).finish = (ofSteps method steps).finish := by
  have h := holds_ofSteps method steps
  have hasks := asks_finish (ofSteps method steps)
  have hunbound : (fun name => !(ofSteps method steps).labels.contains name) =
      fun name => decide (Step.label name ∉ steps) := by
    funext name
    rw [Bool.eq_iff_iff, Bool.not_eq_true', ← Bool.not_eq_true, h.contains_iff, decide_eq_true_iff]
  rw [h.ops_eq, h.regions_eq, ← named, Asks, hunbound] at hasks
  refine ⟨?_, fun body => describes_of_finish h hsize, fun e => ?_, ?_⟩
  · cases hfind : (named steps).find? fun name => .label name ∉ steps with
    | some name =>
        rw [hfind] at hasks
        have hmem := List.mem_of_find?_eq_some hfind
        have hnot : .label name ∉ steps := by simpa using List.find?_some hfind
        rw [hasks]
        constructor
        · rintro ⟨body, hbody⟩
          cases hbody
        · intro hall
          exact absurd (hall name hmem) hnot
    | none =>
        rw [hfind] at hasks
        rw [List.find?_eq_none] at hfind
        exact ⟨fun _ name hname => by simpa using hfind name hname, fun _ => hasks⟩
  · cases hfind : (named steps).find? fun name => .label name ∉ steps with
    | some name =>
        rw [hfind] at hasks
        rw [hasks]
        simp [eq_comm]
    | none =>
        rw [hfind] at hasks
        obtain ⟨body, hbody⟩ := hasks
        rw [hbody]
        simp
  · rw [Patchwork.ofSteps_eq, Patchwork.finish_ofDraft]

/-- A loop with labels named before and after they are bound, a branch without
a label, and a label that is bound a second time in vain. -/
def guardedLoop : List Step :=
  [.label "head", .emit .nop, .branch .conditional "done", .emit (.branch .leave 7),
    .label "head", .switch ["head", "done", "head"], .label "done", .emit (.return none),
    .label "end", .region ⟨"head", "done", "done", "end", .filterAt "done"⟩]

theorem finish_exact_guardedLoop :
    (emitted guardedLoop).length < 2 ^ 32 ∧
      ∃ body, (ofSteps default guardedLoop).finish = .ok body ∧
        Describes default guardedLoop body ∧
        (Patchwork.ofSteps default guardedLoop).finish = .ok body := by
  have hsize : (emitted guardedLoop).length < 2 ^ 32 := by decide
  obtain ⟨hok, hdescribes, -, hpatched⟩ := finish_exact default guardedLoop hsize
  obtain ⟨body, hbody⟩ := hok.2 (by decide)
  exact ⟨hsize, body, hbody, hdescribes body hbody, hpatched.trans hbody⟩

end Assembler

end MethodFlow
