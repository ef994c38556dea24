import MethodFlow.Proofs.Calls.Records

/-!
# Callers and callees

A call is entered at both ends: the callee at the call site of its caller, the
call site at the record of the callee.  The two ends lie in different records,
and callees are added in two rounds.  The first enters them at the call site
and notes which of them are new there, and the second goes through the new ones
and enters the call site at each.  A callee that the site has already is passed
over, on the understanding that its record names the site already.

That understanding is what is proved here.  It is part of an invariant
(`CallGraph.Agrees`) that every change keeps, and given the invariant the two
rounds do the same as entering each callee at both ends, new or not
(`CallEdit.run_addCallees`).  Changes are made in place, so a change that fails
keeps what it has done; adding callees fails before anything is done.

## Main results

* `CallGraph.Agrees.link`, `CallGraph.link_of_callsAt`: a callee entered at
  both ends.
* `CallEdit.run_addCallees`: adding callees in two rounds.
* `CallGraph.ends_agree_of_built`: callers and callees agree in every graph that
  changes lead to.
-/

namespace MethodFlow

namespace CallGraph

variable {g h : CallGraph} {m x caller callee target c : MethodRef} {l label : String}
  {record : MethodCalls} {ref : CallSiteRef}

/-! ## Records -/

theorem calls?_put : (g.put m record).calls? x = if x = m then some record else g.calls? x :=
  SortedMap.get?_insert _ _ _ _

/-- Graphs with the same records and roots are the same graph. -/
theorem ext_calls? (hrecords : ∀ m, g.calls? m = h.calls? m) (hroots : g.roots = h.roots) :
    g = h := by
  cases g
  cases h
  exact congrArg₂ CallGraph.mk (SortedMap.ext_get? hrecords) hroots

/-- Putting a record back where it was changes nothing. -/
theorem put_self (hrecord : g.calls? m = some record) : g.put m record = g := by
  refine ext_calls? (fun x => ?_) rfl
  rw [calls?_put]
  split
  · next hx => rw [hx, hrecord]
  · rfl

theorem calls_eq_of_calls? (hrecord : g.calls? m = some record) : g.calls m = record := by
  rw [calls, hrecord, Option.getD_some]

/-- A method whose record says something has a record. -/
theorem exists_calls?_of_ne (h : g.calls m ≠ .empty) : ∃ record, g.calls? m = some record := by
  cases hrecord : g.calls? m with
  | none => exact absurd (by rw [calls, hrecord, Option.getD_none]) h
  | some record => exact ⟨record, rfl⟩

theorem exists_calls?_of_invocation (h : ref ∈ (g.calls m).invocations) :
    ∃ record, g.calls? m = some record := by
  refine exists_calls?_of_ne fun hempty => ?_
  rw [hempty] at h
  exact SortedSet.not_mem_empty ref h

theorem exists_calls?_of_site {site : CallSite} (h : g.site? m l = some site) :
    ∃ record, g.calls? m = some record := by
  obtain ⟨record, hrecord, -⟩ := Option.bind_eq_some_iff.1 h
  exact ⟨record, hrecord⟩

theorem calls_touch : (g.touch m).calls x = g.calls x := by
  rw [touch, calls_put]
  split
  · next hx => rw [hx]
  · rfl

theorem mem_callers : c ∈ g.callers m ↔ ∃ label, ⟨c, label⟩ ∈ (g.calls m).invocations := by
  simp only [callers, SortedSet.mem_ofList, List.mem_map, SortedSet.mem_toList]
  constructor
  · rintro ⟨ref, href, rfl⟩
    exact ⟨ref.label, href⟩
  · rintro ⟨label, href⟩
    exact ⟨⟨c, label⟩, href, rfl⟩

/-! ## The two ends of a call -/

/-- Enters a callee at a call site. -/
def enterCallee (caller : MethodRef) (label : String) (g : CallGraph) (callee : MethodRef) :
    CallGraph :=
  g.put caller (attach (g.calls caller) label callee)

/-- Enters a call site at a callee. -/
def enterSite (caller : MethodRef) (label : String) (g : CallGraph) (callee : MethodRef) :
    CallGraph :=
  g.put callee (invoke (g.calls callee) ⟨caller, label⟩)

theorem link_eq :
    g.link caller label callee =
      enterSite caller label (enterCallee caller label g callee) callee :=
  rfl

/-- The two ends do not depend on each other, even for a method that calls
itself: one is a call site of the record, the other an invocation. -/
theorem enterCallee_enterSite :
    enterCallee caller label (enterSite caller label g callee) c =
      enterSite caller label (enterCallee caller label g c) callee := by
  refine ext_calls? (fun x => ?_) rfl
  simp only [enterCallee, enterSite, calls?_put, calls_put]
  by_cases hself : callee = caller
  · subst hself
    by_cases hx : x = callee
    · simp only [hx, if_true]
      rfl
    · simp only [hx, if_false]
  · by_cases hx : x = caller
    · subst hx
      simp only [if_true, if_neg hself, if_neg (Ne.symm hself)]
    · simp only [hx, hself, if_false]

/-- Callees can be entered at the call site first, all of them, and the call
site at each of them afterwards. -/
theorem foldl_link (callees : List MethodRef) :
    callees.foldl (fun g m => g.link caller label m) g =
      callees.foldl (enterSite caller label) (callees.foldl (enterCallee caller label) g) := by
  have hlast : ∀ (callees : List MethodRef) (m : MethodRef) (g : CallGraph),
      callees.foldl (enterCallee caller label) (enterSite caller label g m) =
        enterSite caller label (callees.foldl (enterCallee caller label) g) m := by
    intro callees m
    induction callees with
    | nil => exact fun _ => rfl
    | cons c callees ih =>
        intro g
        rw [List.foldl_cons, List.foldl_cons, enterCallee_enterSite, ih]
  induction callees generalizing g with
  | nil => rfl
  | cons m callees ih => rw [List.foldl_cons, ih, link_eq, hlast, List.foldl_cons, List.foldl_cons]

/-! ## Graphs whose ends agree -/

/-- Callees and call sites name each other, call sites stand at their labels,
and the roots are the methods whose records say so. -/
structure Agrees (g : CallGraph) : Prop where
  linked : ∀ caller label m,
    (⟨caller, label⟩ : CallSiteRef) ∈ (g.calls m).invocations ↔ g.CallsAt caller label m
  labelled : ∀ m label site, g.site? m label = some site → site.label = label
  rooted : ∀ m, m ∈ g.roots ↔ (g.calls m).isRoot = true

theorem agrees_empty : empty.Agrees where
  linked := by
    rintro caller label m
    constructor
    · exact fun h => absurd h (SortedSet.not_mem_empty _)
    · rintro ⟨site, hsite, -⟩
      cases hsite
  labelled := by
    intro m label site hsite
    cases hsite
  rooted := fun m => ⟨fun h => absurd h (SortedSet.not_mem_empty m), fun h => nomatch h⟩

/-- A change of records that keeps call sites and invocations keeps the ends in
agreement. -/
theorem Agrees.of_same (hg : g.Agrees) (hsites : ∀ m label, h.site? m label = g.site? m label)
    (hinvocations : ∀ m, (h.calls m).invocations = (g.calls m).invocations)
    (hroots : ∀ m, m ∈ h.roots ↔ (h.calls m).isRoot = true) : h.Agrees where
  linked := by
    intro caller label m
    unfold CallsAt
    rw [hinvocations, hsites]
    exact hg.linked caller label m
  labelled := by
    intro m label site hsite
    rw [hsites] at hsite
    exact hg.labelled m label site hsite
  rooted := hroots

theorem Agrees.touch (hg : g.Agrees) (m : MethodRef) : (g.touch m).Agrees := by
  refine hg.of_same (fun _ _ => site?_touch) (fun x => by rw [calls_touch]) fun x => ?_
  rw [calls_touch]
  exact hg.rooted x

theorem Agrees.addRoot (hg : g.Agrees) (m : MethodRef) : (g.addRoot m).Agrees := by
  have hcalls : ∀ x, (g.addRoot m).calls x =
      if x = m then { g.calls m with isRoot := true } else g.calls x := fun _ => calls_put
  refine hg.of_same (fun _ _ => site?_addRoot) (fun x => ?_) fun x => ?_
  · rw [hcalls]
    split
    · next hx => rw [hx]
    · rfl
  · rw [hcalls]
    show x ∈ g.roots.insert m ↔ _
    rw [SortedSet.mem_insert, hg.rooted]
    split
    · next hx => simp [hx]
    · next hx => simp [hx]

/-- A new call site has no callees, so nothing has to be entered anywhere
else. -/
theorem Agrees.addSite (hg : g.Agrees) (caller : MethodRef) (label : String)
    (target : MethodRef) : (g.addSite caller label target).Agrees := by
  have hcalls : ∀ x, ((g.addSite caller label target).calls x).invocations =
        (g.calls x).invocations ∧
      ((g.addSite caller label target).calls x).isRoot = (g.calls x).isRoot := by
    intro x
    unfold CallGraph.addSite
    rw [calls_put]
    split
    · next hx =>
      rw [hx]
      exact ⟨rfl, rfl⟩
    · exact ⟨rfl, rfl⟩
  refine ⟨fun c l m => ?_, fun m l site hsite => ?_, fun m => ?_⟩
  · rw [(hcalls m).1, callsAt_addSite]
    exact hg.linked c l m
  · rw [site?_addSite] at hsite
    split at hsite
    · next hm =>
      obtain ⟨rfl, rfl⟩ := hm
      cases hold : g.site? m l with
      | none =>
          rw [hold] at hsite
          cases hsite
          rfl
      | some old =>
          rw [hold] at hsite
          cases hsite
          exact hg.labelled m l old hold
    · exact hg.labelled m l site hsite
  · rw [(hcalls m).2]
    exact hg.rooted m

/-- Entering a callee at its call site leaves the rest of the record alone. -/
theorem rest_enterCallee :
    ((enterCallee caller label g callee).calls x).invocations = (g.calls x).invocations ∧
      ((enterCallee caller label g callee).calls x).isRoot = (g.calls x).isRoot := by
  rw [enterCallee, calls_put]
  split
  · next hx =>
    rw [hx]
    exact ⟨rfl, rfl⟩
  · exact ⟨rfl, rfl⟩

theorem mem_invocations_link :
    ref ∈ ((g.link caller label callee).calls x).invocations ↔
      ref ∈ (g.calls x).invocations ∨ x = callee ∧ ref = ⟨caller, label⟩ := by
  rw [link_eq, enterSite, calls_put]
  split
  · next hx =>
    show ref ∈ SortedSet.insert _ _ ↔ _
    rw [SortedSet.mem_insert, rest_enterCallee.1, hx, or_comm, and_iff_right rfl]
  · next hx => rw [rest_enterCallee.1, or_iff_left fun h => hx h.1]

theorem isRoot_link : ((g.link caller label callee).calls x).isRoot = (g.calls x).isRoot := by
  rw [link_eq, enterSite, calls_put]
  split
  · next hx =>
    rw [hx]
    exact rest_enterCallee.2
  · exact rest_enterCallee.2

theorem site?_isSome_link (hsite : (g.site? caller label).isSome = true) :
    ((g.link caller label callee).site? caller label).isSome = true := by
  rw [site?_link, if_pos ⟨rfl, rfl⟩, Option.isSome_map, hsite]

theorem site?_enterCallee :
    (enterCallee caller label g callee).site? x l = (g.link caller label callee).site? x l := by
  have hsecond : (enterSite caller label (enterCallee caller label g callee) callee).site? x l =
      (enterCallee caller label g callee).site? x l := site?_put_of_sites rfl
  rw [link_eq, hsecond]

/-- A callee entered at both ends of a call keeps them in agreement. -/
theorem Agrees.link (hg : g.Agrees) (hsite : (g.site? caller label).isSome = true)
    (callee : MethodRef) : (g.link caller label callee).Agrees where
  linked := by
    intro c l m
    have hcalls := @callsAt_links g c caller m l label [callee] hsite
    rw [List.foldl_cons, List.foldl_nil, List.mem_singleton] at hcalls
    rw [mem_invocations_link, hcalls, hg.linked, CallSiteRef.mk.injEq]
    refine or_congr_right ⟨fun h => ⟨h.2.1, h.2.2, h.1⟩, fun h => ⟨h.2.2, h.1, h.2.1⟩⟩
  labelled := by
    intro m l site hmem
    rw [site?_link] at hmem
    split at hmem
    · next hm =>
      obtain ⟨old, hold, rfl⟩ := Option.map_eq_some_iff.1 hmem
      rw [hm.2]
      exact hg.labelled caller label old hold
    · exact hg.labelled m l site hmem
  rooted := by
    intro m
    rw [isRoot_link]
    exact hg.rooted m

theorem Agrees.links (hg : g.Agrees) (hsite : (g.site? caller label).isSome = true)
    (callees : List MethodRef) : (callees.foldl (fun g m => g.link caller label m) g).Agrees := by
  induction callees generalizing g with
  | nil => exact hg
  | cons m callees ih => exact ih (hg.link hsite m) (site?_isSome_link hsite)

/-- A callee that a call site has already is at both ends already. -/
theorem link_of_callsAt (hg : g.Agrees) (hcall : g.CallsAt caller label callee) :
    g.link caller label callee = g := by
  have href := (hg.linked caller label callee).2 hcall
  obtain ⟨site, hsite, hcallee⟩ := hcall
  have hfirst : enterCallee caller label g callee = g := by
    obtain ⟨record, hrecord⟩ := exists_calls?_of_site hsite
    have hsites : record.sites.modify label (fun s => { s with callees := s.callees.insert callee })
        = record.sites := by
      refine SortedMap.ext_get? fun l => ?_
      rw [SortedMap.get?_modify]
      split
      · next hl =>
        rw [site?_eq, calls_eq_of_calls? hrecord] at hsite
        have hset : site.callees.insert callee = site.callees :=
          SortedSet.ext_mem fun m => SortedSet.mem_insert.trans
            (or_iff_right_of_imp fun hm => hm ▸ hcallee)
        rw [hl, hsite, Option.map_some, hset]
      · rfl
    rw [enterCallee, calls_eq_of_calls? hrecord, attach, hsites]
    exact put_self hrecord
  obtain ⟨record, hrecord⟩ := exists_calls?_of_invocation href
  rw [calls_eq_of_calls? hrecord] at href
  have hset : record.invocations.insert ⟨caller, label⟩ = record.invocations :=
    SortedSet.ext_mem fun ref => SortedSet.mem_insert.trans
      (or_iff_right_of_imp fun href' => href' ▸ href)
  rw [link_eq, hfirst, enterSite, calls_eq_of_calls? hrecord, invoke, hset]
  exact put_self hrecord

end CallGraph

/-! ## Changes made in place -/

/-- A change of a call graph made in place.  When it fails, what it has done by
then stays done. -/
abbrev CallEdit := EStateM Error CallGraph

namespace CallEdit

open CallGraph

variable {g h u : CallGraph} {caller : MethodRef} {label : String} {e : Error}

/-- Enters callees at a call site and gives back those that are new there. -/
def attachNew (caller : MethodRef) (label : String) : List MethodRef → CallEdit (List MethodRef)
  | [] => pure []
  | m :: rest => do
    if ((← get).site? caller label).any fun site => site.callees.contains m then
      attachNew caller label rest
    else
      modify (enterCallee caller label · m)
      return m :: (← attachNew caller label rest)

/-- Adds callees to a call site: first at the site, then at those that are
new. -/
def addCallees (caller : MethodRef) (label : String) (callees : List MethodRef) :
    CallEdit Unit := do
  unless ((← get).site? caller label).isSome do throw (.callSiteMissing caller label)
  let added ← attachNew caller label callees
  added.forM fun m => modify (enterSite caller label · m)

/-- The changes of a call graph.  A question for the record of a method, for its
call sites or for its invocations is one of them: it gives the method a
record. -/
inductive Change where
  | addRoot (m : MethodRef)
  | addSite (caller : MethodRef) (label : String) (target : MethodRef)
  | addCallees (caller : MethodRef) (label : String) (callees : List MethodRef)
  | touch (m : MethodRef)

/-- The steps of a change. -/
def change : Change → CallEdit Unit
  | .addRoot m => modify (·.addRoot m)
  | .addSite caller label target => modify (·.addSite caller label target)
  | .addCallees caller label callees => addCallees caller label callees
  | .touch m => modify (·.touch m)

/-- The end of a change that is made as a whole or not at all. -/
def whole (g : CallGraph) : Except Error CallGraph → EStateM.Result Error CallGraph Unit
  | .ok u => .ok () u
  | .error e => .error e g

/-- The end of a change. -/
def outcome (g : CallGraph) : Change → EStateM.Result Error CallGraph Unit
  | .addRoot m => .ok () (g.addRoot m)
  | .addSite caller label target => .ok () (g.addSite caller label target)
  | .addCallees caller label callees => whole g (g.addCallees caller label callees)
  | .touch m => .ok () (g.touch m)

/-- The graph that is left behind by a change, whether it succeeds or fails. -/
def left : EStateM.Result Error CallGraph Unit → CallGraph
  | .ok _ g => g
  | .error _ g => g

/-- The new callees are those that still have to be entered at both ends.  The
graph `h` where the first round is going on differs from `g`, where both ends
are entered at once, but not at the call site. -/
theorem run_attachNew (callees : List MethodRef) (hg : g.Agrees)
    (hsite : (g.site? caller label).isSome = true)
    (hsame : h.site? caller label = g.site? caller label) :
    ∃ added, (attachNew caller label callees).run h =
        .ok added (added.foldl (enterCallee caller label) h) ∧
      added.foldl (fun g m => g.link caller label m) g =
        callees.foldl (fun g m => g.link caller label m) g := by
  induction callees generalizing g h with
  | nil => exact ⟨[], rfl, rfl⟩
  | cons m rest ih =>
      obtain ⟨site, hsome⟩ := Option.isSome_iff_exists.1 hsite
      by_cases hold : m ∈ site.callees
      · obtain ⟨added, hrun, hlinks⟩ := ih hg hsite hsame
        refine ⟨added, ?_, ?_⟩
        · simp [attachNew, hsame, hsome, hold, hrun]
        · rw [hlinks, List.foldl_cons, link_of_callsAt hg ⟨site, hsome, hold⟩]
      · have hnext : (enterCallee caller label h m).site? caller label =
            (g.link caller label m).site? caller label := by
          rw [site?_enterCallee, site?_link, site?_link, hsame]
        obtain ⟨added, hrun, hlinks⟩ := ih (hg.link hsite m) (site?_isSome_link hsite) hnext
        refine ⟨m :: added, ?_, hlinks⟩
        simp [attachNew, hsame, hsome, hold, hrun, -bind_pure_comp]

/-- **Callees added in two rounds.**  Back-links for the new callees alone do
the same as entering every callee at both ends. -/
theorem run_addCallees (hg : g.Agrees) (callees : List MethodRef) :
    (addCallees caller label callees).run g = outcome g (.addCallees caller label callees) := by
  have hrounds : ∀ (added : List MethodRef) (g : CallGraph),
      (forM added fun m => modify (enterSite caller label · m) : CallEdit Unit).run g =
        .ok () (added.foldl (enterSite caller label) g) := by
    intro added
    induction added with
    | nil => exact fun _ => rfl
    | cons m added ih => exact fun g => ih (enterSite caller label g m)
  cases hsite : g.site? caller label with
  | none => simp [addCallees, outcome, CallGraph.addCallees, hsite, whole]
  | some site =>
      obtain ⟨added, hrun, hlinks⟩ :=
        run_attachNew callees hg (by rw [hsite]; rfl) (h := g) rfl
      simp only [addCallees, outcome, CallGraph.addCallees, hsite, ← hlinks, foldl_link]
      simp [hsite, hrun, hrounds, whole]

theorem run_change (hg : g.Agrees) (c : Change) : (change c).run g = outcome g c := by
  cases c with
  | addRoot m => rfl
  | addSite caller label target => rfl
  | addCallees caller label callees => exact run_addCallees hg callees
  | touch m => rfl

/-- A change that fails leaves the graph as it was. -/
theorem eq_of_outcome {c : Change} (hfailed : outcome g c = .error e u) : u = g := by
  cases c with
  | addCallees caller label callees =>
      rw [outcome] at hfailed
      cases hadded : g.addCallees caller label callees with
      | ok w =>
          rw [hadded] at hfailed
          cases hfailed
      | error e' =>
          rw [hadded] at hfailed
          cases hfailed
          rfl
  | addRoot m => cases hfailed
  | addSite caller label target => cases hfailed
  | touch m => cases hfailed

end CallEdit

namespace CallGraph

open CallEdit

variable {g : CallGraph}

/-- The graph after a change. -/
def after (g : CallGraph) (c : Change) : CallGraph := left ((CallEdit.change c).run g)

/-- The graphs that changes lead to, whichever of them fail. -/
inductive Built : CallGraph → Prop where
  | empty : Built .empty
  | change {g : CallGraph} (hg : Built g) (c : Change) : Built (g.after c)

/-- One change keeps the ends of calls in agreement, whether it succeeds or
fails. -/
theorem Agrees.after (hg : g.Agrees) (c : Change) : (g.after c).Agrees := by
  rw [CallGraph.after, run_change hg]
  cases c with
  | addRoot m => exact hg.addRoot m
  | addSite caller label target => exact hg.addSite caller label target
  | addCallees caller label callees =>
      rw [outcome, CallGraph.addCallees]
      cases hsite : g.site? caller label with
      | none => exact hg
      | some site => exact hg.links (by rw [hsite]; rfl) callees
  | touch m => exact hg.touch m

theorem Built.agrees (hg : g.Built) : g.Agrees := by
  induction hg with
  | empty => exact agrees_empty
  | change _ c ih => exact ih.after c

theorem Built.foldl (hg : g.Built) (changes : List Change) : (changes.foldl after g).Built :=
  List.foldlRecOn changes after hg fun _ hb c _ => hb.change c

/-- **Callers and callees agree** in every graph that changes lead to: the
invocations of a method are the call sites that have it as a callee, callers and
callees are each other's, every callee has a record, and roots are known to
their records.  A change does in place what it does as a whole, and one that
fails changes nothing. -/
theorem ends_agree_of_built (hg : g.Built) :
    (∀ caller label m, (⟨caller, label⟩ : CallSiteRef) ∈ (g.calls m).invocations ↔
        ∃ site, g.site? caller label = some site ∧ site.label = label ∧ m ∈ site.callees) ∧
      (∀ c m, m ∈ g.callees c ↔ c ∈ g.callers m) ∧
      (∀ c m, m ∈ g.callees c → ∃ record, g.calls? m = some record) ∧
      (∀ m, g.isRoot m = true ↔
        ∃ record, g.calls? m = some record ∧ record.isRoot = true) ∧
      (∀ c, (CallEdit.change c).run g = outcome g c) ∧
      ∀ c e u, (CallEdit.change c).run g = .error e u → u = g := by
  have hagrees := hg.agrees
  have hends : ∀ c m, m ∈ g.callees c ↔ c ∈ g.callers m := by
    intro c m
    rw [mem_callees, mem_callers]
    exact exists_congr fun label => (hagrees.linked c label m).symm
  refine ⟨fun caller label m => ?_, hends, fun c m hm => ?_, fun m => ?_, run_change hagrees,
    fun c e u hfailed => eq_of_outcome ((run_change hagrees c).symm.trans hfailed)⟩
  · rw [hagrees.linked]
    refine exists_congr fun site => and_congr_right fun hsite => ?_
    exact (and_iff_right (hagrees.labelled caller label site hsite)).symm
  · obtain ⟨label, href⟩ := mem_callers.1 ((hends c m).1 hm)
    exact exists_calls?_of_invocation href
  · rw [isRoot, SortedSet.contains_iff_mem, hagrees.rooted, calls]
    cases g.calls? m with
    | none => simp [MethodCalls.empty]
    | some record => simp

/-- `Run` calls `Help` and itself at one call site.  The first change fails,
since the site is not there yet, and the last one finds nothing new. -/
def selfCaller : CallGraph :=
  [Change.addCallees ⟨"P", "Run", "()"⟩ "L_0002" [⟨"P", "Help", "()"⟩],
    .addRoot ⟨"P", "Run", "()"⟩,
    .addSite ⟨"P", "Run", "()"⟩ "L_0002" ⟨"P", "Help", "()"⟩,
    .addCallees ⟨"P", "Run", "()"⟩ "L_0002"
      [⟨"P", "Help", "()"⟩, ⟨"P", "Run", "()"⟩, ⟨"P", "Help", "()"⟩],
    .addCallees ⟨"P", "Run", "()"⟩ "L_0002" [⟨"P", "Run", "()"⟩]].foldl after empty

theorem ends_agree_of_built_selfCaller :
    selfCaller.Built ∧ ⟨"P", "Run", "()"⟩ ∈ selfCaller.callees ⟨"P", "Run", "()"⟩ ∧
      ⟨"P", "Run", "()"⟩ ∈ selfCaller.callers ⟨"P", "Run", "()"⟩ ∧
      ∃ record, selfCaller.calls? ⟨"P", "Run", "()"⟩ = some record := by
  have hbuilt : selfCaller.Built := Built.foldl .empty _
  have hcallee : ⟨"P", "Run", "()"⟩ ∈ selfCaller.callees ⟨"P", "Run", "()"⟩ := by
    decide +kernel
  obtain ⟨-, hends, hrecords, -⟩ := ends_agree_of_built hbuilt
  exact ⟨hbuilt, hcallee, (hends _ _).1 hcallee, hrecords _ _ hcallee⟩

end CallGraph

end MethodFlow
