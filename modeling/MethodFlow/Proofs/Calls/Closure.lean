import Mathlib.Data.List.Nodup
import MethodFlow.Calls.Build
import MethodFlow.Proofs.Calls.Records
import MethodFlow.Proofs.Cfg.Layout
import MethodFlow.Proofs.Hierarchy.Closure
import MethodFlow.Proofs.Text.Label

/-!
# The methods that roots reach

Which methods a program may run is said without a graph: the roots, and
whatever an instruction of a method that may run can call.  The call graph of
the roots has a record for each of these methods and for no other, and the
methods that its own call sites reach from its roots are the same once more.

Two searches have to agree on this.  The construction follows the bodies, the
finished graph is asked about its call sites, and call sites are kept by label:
where two instructions of a body share a label they share a call site too, which
then has the callees of both.  So the two agree whatever the labels are.  Where
the offsets of a body ascend, no label is shared, and its call sites are its
calls one by one.

## Main results

* `Universe.mem_reached`: the construction visits the methods that may run.
* `CallGraph.mem_callees_build`: callees are what the instructions can call.
* `CallGraph.site?_build`: call sites of a body without shared labels.
* `CallGraph.build_exact`: the call graph is the closure of its roots.
-/

namespace MethodFlow

/-! ## Methods that may run -/

/-- The instruction calls `target`.  The creation of an object calls the
constructor, and nothing else. -/
inductive Instruction.Calls (i : Instruction) : MethodRef → Dispatch → Prop where
  | call {result : Option Variable} {target : MethodRef} {arguments : List Variable}
      {dispatch : Dispatch} (hop : i.op = .call result target arguments dispatch) :
      i.Calls target dispatch
  | create {dest : Variable} {type : TypeName} {target : MethodRef}
      (hop : i.op = .createObject dest type target) : i.Calls target .static

/-- The call of an instruction, with the label that its call site has. -/
def Instruction.call? (i : Instruction) : Option (String × MethodRef × Dispatch) :=
  match i.op with
  | .call _ method _ dispatch => some (i.offset.label, method, dispatch)
  | .createObject _ _ constructor => some (i.offset.label, constructor, .static)
  | _ => none

theorem Instruction.call?_eq_some_iff {i : Instruction} {call : String × MethodRef × Dispatch} :
    i.call? = some call ↔ i.Calls call.2.1 call.2.2 ∧ i.offset.label = call.1 := by
  obtain ⟨label, target, dispatch⟩ := call
  unfold call?
  constructor
  · intro hcall
    split at hcall
    · next hop =>
      cases hcall
      exact ⟨.call hop, rfl⟩
    · next hop =>
      cases hcall
      exact ⟨.create hop, rfl⟩
    · cases hcall
  · rintro ⟨hcalls, rfl⟩
    cases hcalls with
    | call hop => simp [hop]
    | create hop => simp [hop]

namespace Body

variable {b : Body} {call : String × MethodRef × Dispatch}

theorem calls_eq : b.calls = b.code.filterMap Instruction.call? := rfl

theorem mem_calls :
    call ∈ b.calls ↔ ∃ i ∈ b.code, i.Calls call.2.1 call.2.2 ∧ i.offset.label = call.1 := by
  rw [calls_eq, List.mem_filterMap]
  exact exists_congr fun i => and_congr_right fun _ => Instruction.call?_eq_some_iff

/-- Where offsets ascend, no label is shared. -/
theorem nodup_labels (hascend : Cfg.OffsetsAscend b.code) :
    (b.code.map (·.offset.label)).Nodup := by
  refine List.pairwise_map.2 (hascend.imp fun hlt hlabel => ?_)
  exact Nat.ne_of_lt hlt (Offset.eq_of_label hlabel)

theorem nodup_calls (hascend : Cfg.OffsetsAscend b.code) : (b.calls.map Prod.fst).Nodup := by
  refine List.pairwise_map.2 (List.pairwise_filterMap.2 ?_)
  refine (List.pairwise_map.1 (nodup_labels hascend)).imp fun hne x hx y hy hxy => hne ?_
  rw [(Instruction.call?_eq_some_iff.1 hx).2, (Instruction.call?_eq_some_iff.1 hy).2, hxy]

end Body

namespace Universe

variable {u : Universe} {h : Hierarchy} {roots : List MethodRef} {m e : MethodRef}
  {call : String × MethodRef × Dispatch}

/-- The body of the method that a reference names. -/
def body? (u : Universe) (m : MethodRef) : Option Body := (u.method? m).bind MethodDef.body

/-- Some instruction in the body of `m` can call `e`. -/
def Invokes (u : Universe) (h : Hierarchy) (m e : MethodRef) : Prop :=
  ∃ b, u.body? m = some b ∧ ∃ i ∈ b.code, ∃ target dispatch, i.Calls target dispatch ∧
    e ∈ u.resolve h target dispatch

/-- A method that may run: a root, or one that a method that may run can
call. -/
inductive Called (u : Universe) (h : Hierarchy) (roots : List MethodRef) : MethodRef → Prop where
  | root {m : MethodRef} (hroot : m ∈ roots) : Called u h roots m
  | call {m e : MethodRef} (hm : Called u h roots m) (hcall : u.Invokes h m e) :
      Called u h roots e

/-- The call site that records a call. -/
def siteOf (u : Universe) (h : Hierarchy) (call : String × MethodRef × Dispatch) : CallSite :=
  ⟨call.1, call.2.1, u.resolve h call.2.1 call.2.2⟩

/-- The call sites are those of the calls of `m`, by label. -/
def SitesOf (u : Universe) (h : Hierarchy) (m : MethodRef) (sites : String → Option CallSite) :
    Prop :=
  ∀ l site, sites l = some site ↔ site.label = l ∧ ∃ call ∈ u.callsOf m, u.siteOf h call = site

theorem callsOf_of_body {b : Body} (hb : u.body? m = some b) : u.callsOf m = b.calls := by
  show ((u.body? m).map Body.calls).getD [] = _
  rw [hb]
  rfl

theorem callsOf_of_bodyless (hb : u.body? m = none) : u.callsOf m = [] := by
  show ((u.body? m).map Body.calls).getD [] = _
  rw [hb]
  rfl

theorem mem_callsOf :
    call ∈ u.callsOf m ↔ ∃ b, u.body? m = some b ∧
      ∃ i ∈ b.code, i.Calls call.2.1 call.2.2 ∧ i.offset.label = call.1 := by
  cases hb : u.body? m with
  | none => simp [callsOf_of_bodyless hb]
  | some b => simp [callsOf_of_body hb, Body.mem_calls]

theorem invokes_iff :
    u.Invokes h m e ↔ ∃ call ∈ u.callsOf m, e ∈ u.resolve h call.2.1 call.2.2 := by
  constructor
  · rintro ⟨b, hb, i, hi, target, dispatch, hcalls, he⟩
    exact ⟨(i.offset.label, target, dispatch), mem_callsOf.2 ⟨b, hb, i, hi, hcalls, rfl⟩, he⟩
  · rintro ⟨call, hcall, he⟩
    obtain ⟨b, hb, i, hi, hcalls, -⟩ := mem_callsOf.1 hcall
    exact ⟨b, hb, i, hi, call.2.1, call.2.2, hcalls, he⟩

theorem mem_calleesOf : e ∈ u.calleesOf h m ↔ u.Invokes h m e := by
  rw [calleesOf, List.mem_flatMap, invokes_iff]
  rfl

/-- What a method can call is among what any method can call. -/
theorem mem_allCallees (hcall : u.Invokes h m e) : e ∈ u.allCallees h := by
  obtain ⟨call, hmem, he⟩ := invokes_iff.1 hcall
  obtain ⟨b, hb, hi⟩ := mem_callsOf.1 hmem
  obtain ⟨d, hd, hbody⟩ := Option.bind_eq_some_iff.1 hb
  obtain ⟨t, ht, hfind⟩ := Option.bind_eq_some_iff.1 hd
  refine List.mem_flatMap.2 ⟨t, mem_toList_of_get? ht,
    List.mem_flatMap.2 ⟨d, List.mem_of_find?_eq_some hfind, ?_⟩⟩
  rw [hbody]
  exact List.mem_flatMap.2 ⟨call, Body.mem_calls.2 hi, he⟩

/-- **The construction visits the methods that may run.** -/
theorem mem_reached : m ∈ u.reached h roots ↔ u.Called h roots m := by
  rw [reached, mem_explore]
  constructor
  · intro hm
    induction hm with
    | root _ hwork => exact .root hwork
    | step _ _ hnext ih => exact .call ih (mem_calleesOf.1 hnext)
  · intro hm
    induction hm with
    | root hroot =>
        exact .root (SortedSet.mem_ofList.2 (List.mem_append_left _ hroot)) hroot
    | call _ hcall ih =>
        have hpending := SortedSet.mem_ofList.2 (List.mem_append_right roots (mem_allCallees hcall))
        exact .step ih hpending (mem_calleesOf.2 hcall)

theorem nodup_reached (u : Universe) (h : Hierarchy) (roots : List MethodRef) :
    (u.reached h roots).Nodup :=
  nodup_explore (SortedSet.nodup_toList _)

end Universe

namespace CallGraph

variable {u : Universe} {h : Hierarchy} {roots : List MethodRef} {g g' : CallGraph}
  {m x c : MethodRef} {l : String} {call : String × MethodRef × Dispatch}

/-! ## One call recorded -/

/-- A call is recorded by a call site and its callees; this never fails. -/
theorem addCall_eq :
    addCall u h m g call =
      .ok ((u.resolve h call.2.1 call.2.2).toList.foldl (fun g e => g.link m call.1 e)
        (g.addSite m call.1 call.2.1)) := by
  unfold addCall addCallees
  rw [site?_addSite, if_pos ⟨rfl, rfl⟩]

theorem site?_addCall (hok : addCall u h m g call = .ok g') :
    g'.site? x l =
      if x = m ∧ l = call.1 then
        some (((g.site? m call.1).getD ⟨call.1, call.2.1, .empty⟩).extend
          (u.resolve h call.2.1 call.2.2).toList)
      else g.site? x l := by
  rw [addCall_eq] at hok
  cases hok
  rw [site?_links]
  split
  · rw [site?_addSite, if_pos ⟨rfl, rfl⟩]
    rfl
  · next hne => rw [site?_addSite, if_neg hne]

theorem mem_callees_addCall (hok : addCall u h m g call = .ok g') :
    c ∈ g'.callees x ↔
      c ∈ g.callees x ∨ x = m ∧ c ∈ u.resolve h call.2.1 call.2.2 := by
  rw [addCall_eq] at hok
  cases hok
  have hsite : ((g.addSite m call.1 call.2.1).site? m call.1).isSome := by
    rw [site?_addSite, if_pos ⟨rfl, rfl⟩]
    rfl
  simp only [mem_callees, callsAt_links _ hsite, callsAt_addSite, exists_or, exists_and_left,
    exists_eq_left, SortedSet.mem_toList]

theorem mem_keys_addCall (hok : addCall u h m g call = .ok g') :
    x ∈ g'.methods.keys ↔
      x ∈ g.methods.keys ∨ x = m ∨ x ∈ u.resolve h call.2.1 call.2.2 := by
  rw [addCall_eq] at hok
  cases hok
  rw [mem_keys_links _ (mem_keys_addSite.2 (.inl rfl)), mem_keys_addSite, SortedSet.mem_toList,
    or_assoc]
  exact or_left_comm

theorem roots_addCall (hok : addCall u h m g call = .ok g') : g'.roots = g.roots := by
  rw [addCall_eq] at hok
  cases hok
  exact roots_links _

/-! ## One method recorded -/

theorem mem_callees_addMethod (hok : addMethod u h g m = .ok g') :
    c ∈ g'.callees x ↔ c ∈ g.callees x ∨ x = m ∧ u.Invokes h m c := by
  have hfold := foldlM_iff (Q := (c ∈ callees · x))
    (fun call _ _ _ hstep => mem_callees_addCall hstep) hok
  rw [hfold, mem_callees_congr fun _ => site?_touch, Universe.invokes_iff]
  refine or_congr_right ⟨?_, ?_⟩
  · rintro ⟨call, hcall, hx, hc⟩
    exact ⟨hx, call, hcall, hc⟩
  · rintro ⟨hx, call, hcall, hc⟩
    exact ⟨call, hcall, hx, hc⟩

theorem mem_keys_addMethod (hok : addMethod u h g m = .ok g') :
    x ∈ g'.methods.keys ↔ x ∈ g.methods.keys ∨ x = m ∨ u.Invokes h m x := by
  have hfold := foldlM_iff (Q := (x ∈ ·.methods.keys))
    (fun call _ _ _ hstep => mem_keys_addCall hstep) hok
  rw [hfold, touch, mem_keys_put, Universe.invokes_iff]
  constructor
  · rintro ((hx | hx) | ⟨call, hcall, hx | hx⟩)
    · exact .inr (.inl hx)
    · exact .inl hx
    · exact .inr (.inl hx)
    · exact .inr (.inr ⟨call, hcall, hx⟩)
  · rintro (hx | hx | ⟨call, hcall, hx⟩)
    · exact .inl (.inr hx)
    · exact .inl (.inl hx)
    · exact .inr ⟨call, hcall, .inr hx⟩

theorem roots_addMethod (hok : addMethod u h g m = .ok g') : g'.roots = g.roots :=
  foldlM_keeps (P := fun g' => g'.roots = g.roots)
    (fun _ _ _ _ hroots hstep => (roots_addCall hstep).trans hroots) rfl hok

/-- A label that no call of the method has stays as it is, and so do the call
sites of other methods. -/
theorem site?_addMethod_of_ne (hne : x = m → ∀ call ∈ u.callsOf m, call.1 ≠ l)
    (hok : addMethod u h g m = .ok g') : g'.site? x l = g.site? x l := by
  refine foldlM_keeps (P := fun g' => g'.site? x l = g.site? x l) ?_ site?_touch hok
  intro call hcall g₁ g₂ hsite hstep
  rw [site?_addCall hstep, if_neg, hsite]
  rintro ⟨hx, hl⟩
  exact hne hx call hcall hl.symm

/-- A label that one call of the method has stands for this call. -/
theorem site?_addMethod_of_mem (hlabels : ((u.callsOf m).map Prod.fst).Nodup)
    (hfresh : g.site? m call.1 = none) (hcall : call ∈ u.callsOf m)
    (hok : addMethod u h g m = .ok g') :
    g'.site? m call.1 = some (u.siteOf h call) := by
  refine foldlM_sets (V := (·.site? m call.1)) (v := none) (Q := (· = some _))
    (hlabels.of_map Prod.fst) hcall ?_ ?_ (site?_touch.trans hfresh) hok
  · intro g₁ g₂ hnone hstep
    rw [site?_addCall hstep, if_pos ⟨rfl, rfl⟩, hnone, Option.getD_none, CallSite.extend_empty]
    rfl
  · intro other hother hne g₁ g₂ hstep
    have hlabel : call.1 ≠ other.1 := fun heq =>
      hne (List.inj_on_of_nodup_map hlabels hother hcall heq.symm)
    exact (site?_addCall hstep).trans (if_neg fun heq => hlabel heq.2)

/-- **Where no label is shared, call sites are calls.** -/
theorem sitesOf_addMethod (hlabels : ((u.callsOf m).map Prod.fst).Nodup)
    (hfresh : ∀ l, g.site? m l = none) (hok : addMethod u h g m = .ok g') :
    u.SitesOf h m (g'.site? m) := by
  intro l site
  constructor
  · intro hsite
    by_cases hcall : ∃ call ∈ u.callsOf m, call.1 = l
    · obtain ⟨call, hcall, rfl⟩ := hcall
      rw [site?_addMethod_of_mem hlabels (hfresh _) hcall hok] at hsite
      cases hsite
      exact ⟨rfl, call, hcall, rfl⟩
    · rw [site?_addMethod_of_ne (fun _ call hmem hl => hcall ⟨call, hmem, hl⟩) hok, hfresh] at hsite
      cases hsite
  · rintro ⟨rfl, call, hcall, rfl⟩
    exact site?_addMethod_of_mem hlabels (hfresh _) hcall hok

/-! ## The whole graph -/

/-- What the roots reach is recorded without failure. -/
theorem exists_addMethods (methods : List MethodRef) :
    ∃ g', methods.foldlM (addMethod u h) g = .ok g' := by
  have hcalls : ∀ m ∈ methods, ∀ g e, True → addMethod u h g m ≠ .error e := fun m _ g e _ =>
    foldlM_ne_error (P := fun _ => True) (fun _ _ _ _ _ _ => trivial)
      (fun call _ g e _ => by rw [addCall_eq]; simp) trivial
  cases hfold : methods.foldlM (addMethod u h) g with
  | ok g' => exact ⟨g', rfl⟩
  | error e => exact absurd hfold (foldlM_ne_error (fun _ _ _ _ _ _ => trivial) hcalls trivial)

/-- The construction fails at the first root that is not declared, and in no
other way. -/
theorem build_eq_error_iff {e : Error} :
    build u h roots = .error e ↔
      ∃ front m back, roots = front ++ m :: back ∧ (∀ r ∈ front, (u.method? r).isSome) ∧
        u.method? m = none ∧ e = .methodNotFound m := by
  have hfirst : build u h roots = .error e ↔
      ∃ m, roots.find? (fun m => (u.method? m).isNone) = some m ∧ e = .methodNotFound m := by
    unfold build
    cases hfind : roots.find? (fun m => (u.method? m).isNone) with
    | some m => simp [eq_comm]
    | none =>
        obtain ⟨g, hg⟩ := @exists_addMethods u h (roots.foldl addRoot empty) (u.reached h roots)
        simp [hg]
  rw [hfirst]
  constructor
  · rintro ⟨m, hfind, rfl⟩
    obtain ⟨hm, front, back, hroots, hfront⟩ := List.find?_eq_some_iff_append.1 hfind
    exact ⟨front, m, back, hroots, by simpa using hfront, by simpa using hm, rfl⟩
  · rintro ⟨front, m, back, hroots, hfront, hm, rfl⟩
    refine ⟨m, List.find?_eq_some_iff_append.2 ⟨by simp [hm], front, back, hroots, ?_⟩, rfl⟩
    simpa using hfront

theorem exists_build (hroots : ∀ m ∈ roots, (u.method? m).isSome) :
    ∃ g, build u h roots = .ok g := by
  cases hbuild : build u h roots with
  | ok g => exact ⟨g, rfl⟩
  | error e =>
      obtain ⟨front, m, back, rfl, -, hm, -⟩ := build_eq_error_iff.1 hbuild
      have hsome : (u.method? m).isSome := hroots m (by simp)
      rw [hm] at hsome
      cases hsome

theorem foldlM_of_build (hok : build u h roots = .ok g) :
    (u.reached h roots).foldlM (addMethod u h) (roots.foldl addRoot empty) = .ok g := by
  unfold build at hok
  split at hok
  · cases hok
  · exact hok

theorem mem_callees_build (hok : build u h roots = .ok g) :
    c ∈ g.callees m ↔ u.Called h roots m ∧ u.Invokes h m c := by
  have hfold := foldlM_iff (Q := (c ∈ callees · m))
    (fun _ _ _ _ hstep => mem_callees_addMethod hstep) (foldlM_of_build hok)
  rw [hfold, mem_callees_congr fun _ => site?_addRoots roots, ← Universe.mem_reached]
  constructor
  · rintro (hc | ⟨x, hx, rfl, hcall⟩)
    · exact absurd hc (SortedSet.not_mem_empty c)
    · exact ⟨hx, hcall⟩
  · rintro ⟨hm, hcall⟩
    exact .inr ⟨m, hm, rfl, hcall⟩

theorem mem_keys_build (hok : build u h roots = .ok g) :
    m ∈ g.methods.keys ↔ u.Called h roots m := by
  have hfold := foldlM_iff (Q := (m ∈ ·.methods.keys))
    (fun _ _ _ _ hstep => mem_keys_addMethod hstep) (foldlM_of_build hok)
  rw [hfold, mem_keys_addRoots]
  constructor
  · rintro ((hm | hm) | ⟨x, hx, hm | hm⟩)
    · cases hm
    · exact .root hm
    · exact Universe.mem_reached.1 (hm ▸ hx)
    · exact .call (Universe.mem_reached.1 hx) hm
  · intro hm
    exact .inr ⟨m, Universe.mem_reached.2 hm, .inl rfl⟩

theorem mem_roots_build (hok : build u h roots = .ok g) : m ∈ g.roots ↔ m ∈ roots := by
  have hroots : g.roots = (roots.foldl addRoot empty).roots :=
    foldlM_keeps (P := fun g => g.roots = (roots.foldl addRoot empty).roots)
      (fun _ _ _ _ hroots hstep => (roots_addMethod hstep).trans hroots) rfl (foldlM_of_build hok)
  rw [hroots, mem_roots_addRoots]
  exact or_iff_right (SortedSet.not_mem_empty m)

theorem sitesOf_build (hlabels : ((u.callsOf m).map Prod.fst).Nodup)
    (hok : build u h roots = .ok g) (hm : u.Called h roots m) : u.SitesOf h m (g.site? m) := by
  refine foldlM_sets (V := fun g => g.site? m) (v := fun _ => none) (Q := u.SitesOf h m)
    (u.nodup_reached h roots) (Universe.mem_reached.2 hm) ?_ ?_ ?_ (foldlM_of_build hok)
  · intro g₁ g₂ hnone hstep
    exact sitesOf_addMethod hlabels (congrFun hnone) hstep
  · intro x hx hne g₁ g₂ hstep
    funext l
    exact site?_addMethod_of_ne (fun heq => absurd heq.symm hne) hstep
  · funext l
    exact site?_addRoots roots

/-- The methods that the graph reaches from its roots are those that may
run. -/
theorem mem_reachable_build (hok : build u h roots = .ok g) :
    m ∈ g.reachable ↔ u.Called h roots m := by
  rw [reachable, SortedSet.mem_ofList, mem_explore]
  constructor
  · intro hm
    induction hm with
    | root _ hwork => exact .root ((mem_roots_build hok).1 hwork)
    | step _ _ hnext ih => exact .call ih ((mem_callees_build hok).1 hnext).2
  · intro hm
    induction hm with
    | root hroot =>
        exact .root ((mem_keys_build hok).2 (.root hroot)) ((mem_roots_build hok).2 hroot)
    | call hm hcall ih =>
        exact .step ih ((mem_keys_build hok).2 (.call hm hcall))
          ((mem_callees_build hok).2 ⟨hm, hcall⟩)

theorem keys_build (hok : build u h roots = .ok g) :
    g.methods.keys = g.reachable.toList := by
  have hset : (⟨g.methods.keys, List.pairwise_map.2 g.methods.ascending⟩ : SortedSet MethodRef) =
      g.reachable :=
    SortedSet.ext_mem fun _ => (mem_keys_build hok).trans (mem_reachable_build hok).symm
  exact congrArg SortedSet.toList hset

/-- A method without a body has no call sites. -/
theorem site?_build_of_bodyless (hok : build u h roots = .ok g) (hm : u.Called h roots m)
    (hbody : u.body? m = none) : g.site? m l = none := by
  have hcalls : u.callsOf m = [] := Universe.callsOf_of_bodyless hbody
  have hsites := sitesOf_build (by rw [hcalls]; exact List.nodup_nil) hok hm
  refine Option.eq_none_iff_forall_ne_some.2 fun site hsite => ?_
  obtain ⟨-, call, hcall, -⟩ := (hsites l site).1 hsite
  rw [hcalls] at hcall
  cases hcall

/-- The call sites of a body whose offsets ascend are its calls. -/
theorem site?_build {b : Body} {site : CallSite} (hok : build u h roots = .ok g)
    (hm : u.Called h roots m) (hbody : u.body? m = some b)
    (hascend : Cfg.OffsetsAscend b.code) :
    g.site? m l = some site ↔
      ∃ i ∈ b.code, ∃ target dispatch, i.Calls target dispatch ∧ i.offset.label = l ∧
        site = ⟨l, target, u.resolve h target dispatch⟩ := by
  have hcalls : u.callsOf m = b.calls := Universe.callsOf_of_body hbody
  have hsites := sitesOf_build (by rw [hcalls]; exact Body.nodup_calls hascend) hok hm
  rw [hsites, hcalls]
  constructor
  · rintro ⟨rfl, call, hcall, rfl⟩
    obtain ⟨i, hi, hi_calls, hlabel⟩ := Body.mem_calls.1 hcall
    exact ⟨i, hi, call.2.1, call.2.2, hi_calls, hlabel, rfl⟩
  · rintro ⟨i, hi, target, dispatch, hi_calls, hlabel, rfl⟩
    exact ⟨rfl, (l, target, dispatch), Body.mem_calls.2 ⟨i, hi, hi_calls, hlabel⟩, rfl⟩

/-- **The call graph is the closure of its roots.**  It can be built when every
root is declared, and otherwise the first root that is not is named. -/
theorem build_exact (u : Universe) (h : Hierarchy) (roots : List MethodRef) :
    (∀ e, build u h roots = .error e ↔
      ∃ front m back, roots = front ++ m :: back ∧ (∀ r ∈ front, (u.method? r).isSome) ∧
        u.method? m = none ∧ e = .methodNotFound m) ∧
    ((∀ m ∈ roots, (u.method? m).isSome) →
      ∃ g, build u h roots = .ok g ∧
        g.methods.keys = g.reachable.toList ∧
        (∀ m, m ∈ g.reachable ↔ u.Called h roots m) ∧
        ∀ m ∈ g.reachable,
          (u.body? m = none → ∀ label, g.site? m label = none) ∧
          ∀ b, u.body? m = some b → Cfg.OffsetsAscend b.code →
            (∀ i ∈ b.code, ∀ j ∈ b.code, i.offset.label = j.offset.label → i = j) ∧
            ∀ label site, g.site? m label = some site ↔
              ∃ i ∈ b.code, ∃ target dispatch, i.Calls target dispatch ∧
                i.offset.label = label ∧
                site = ⟨label, target, u.resolve h target dispatch⟩) := by
  refine ⟨fun e => build_eq_error_iff, fun hroots => ?_⟩
  obtain ⟨g, hok⟩ := @exists_build u h roots hroots
  refine ⟨g, hok, keys_build hok, fun m => mem_reachable_build hok, fun m hm => ?_⟩
  have hcalled : u.Called h roots m := (mem_reachable_build hok).1 hm
  refine ⟨fun hbody label => site?_build_of_bodyless hok hcalled hbody,
    fun b hbody hascend => ⟨fun i hi j hj hlabel => ?_, fun label site => ?_⟩⟩
  · exact List.inj_on_of_nodup_map (Body.nodup_labels hascend) hi hj hlabel
  · exact site?_build hok hcalled hbody hascend

def evenTest : MethodRef := ⟨"Even", "Test", "()"⟩

def oddTest : MethodRef := ⟨"Odd", "Test", "()"⟩

def oddConstructor : MethodRef := ⟨"Odd", ".ctor", "()"⟩

/-- Creates an object and calls its method. -/
def evenBody : Body where
  method := evenTest
  parameters := []
  locals := [⟨"x", none, .local⟩]
  code :=
    [⟨0, .createObject ⟨"x", none, .local⟩ "Odd" oddConstructor⟩,
      ⟨1, .call none oddTest [⟨"x", none, .local⟩] .virtual⟩, ⟨2, .return none⟩]
  regions := []

def oddBody : Body :=
  ⟨oddTest, [], [], [⟨0, .call none evenTest [] .virtual⟩, ⟨1, .return none⟩], []⟩

/-- Two types that name each other as base, with methods that call each
other. -/
def knot : Universe :=
  .ofList
    [⟨"Even", .classType, some "Odd", [], [⟨evenTest, ⟨false, false, true, false⟩, evenBody⟩]⟩,
      ⟨"Odd", .classType, some "Even", [], [⟨oddTest, ⟨false, false, true, false⟩, oddBody⟩]⟩]

/-- Each type is below the other, so the call in the one method may run either.
The constructor is reached without being declared, and calls nothing. -/
theorem build_exact_knot :
    (∀ m ∈ [evenTest], (knot.method? m).isSome) ∧ Cfg.OffsetsAscend evenBody.code ∧
      ∃ g, build knot (.ofUniverse knot) [evenTest] = .ok g ∧
        g.methods.keys = g.reachable.toList ∧
        oddConstructor ∈ g.reachable ∧
        (∀ label, g.site? oddConstructor label = none) ∧
        g.site? evenTest "L_0001" = some ⟨"L_0001", oddTest, .ofList [evenTest, oddTest]⟩ := by
  have hroots : ∀ m ∈ [evenTest], (knot.method? m).isSome := by decide +kernel
  have hbody : knot.body? evenTest = some evenBody := by decide +kernel
  have hascend : Cfg.OffsetsAscend evenBody.code := by
    unfold Cfg.OffsetsAscend
    decide
  obtain ⟨g, hok, hkeys, hreach, hsites⟩ := (build_exact knot (.ofUniverse knot) _).2 hroots
  have heven : evenTest ∈ g.reachable := (hreach _).2 (.root (by decide))
  have hcreates : knot.Invokes (.ofUniverse knot) evenTest oddConstructor :=
    ⟨evenBody, hbody, _, List.mem_cons_self, _, _, .create rfl, by decide +kernel⟩
  have hodd : oddConstructor ∈ g.reachable := (hreach _).2 (.call ((hreach _).1 heven) hcreates)
  refine ⟨hroots, hascend, g, hok, hkeys, hodd, (hsites _ hodd).1 (by decide +kernel), ?_⟩
  refine (((hsites _ heven).2 evenBody hbody hascend).2 _ _).2
    ⟨_, List.mem_cons_of_mem _ List.mem_cons_self, _, _, .call rfl, by decide +kernel, ?_⟩
  decide +kernel

end CallGraph

end MethodFlow
