import MethodFlow.Proofs.Calls.Closure
import MethodFlow.Proofs.Calls.Links
import MethodFlow.Proofs.Graph.Worklists

/-!
# Building a call graph by a worklist

The call graph is built method by method.  The roots are put on a worklist,
and the first of them that is not declared is an error.  Then methods are
taken from the list.  One that has not been visited gets a record, and as the
calls of its body are recorded, those callees that have not been visited are
put on the list as well.

This visits the methods that `Universe.reached` names, but in another order,
and not even each method's callees are done before the next method.  The order
leaves no trace in the graph: what is recorded for a method goes into the call
sites of this method and into the invocations of its callees, and the
invocations are a set.  So what is recorded for two methods may be exchanged
(`CallGraph.Entry.comm`).

## Main results

* `CallGraph.addMethod_eq`: what is recorded for a method, entry by entry.
* `CallGraph.foldl_record_perm`: methods may be recorded in any order.
* `CallGraph.runs_build`: the worklist builds the call graph.
-/

namespace MethodFlow

namespace CallGraph

variable {u : Universe} {h : Hierarchy} {g : CallGraph} {m x : MethodRef}
  {call : String × MethodRef × Dispatch}

/-! ## Entries -/

/-- One change of one record. -/
inductive Entry where
  /-- Changes the call sites of a caller. -/
  | sites (caller : MethodRef)
      (change : SortedMap String CallSite → SortedMap String CallSite)
  /-- Records a call site at a callee. -/
  | invocation (callee : MethodRef) (site : CallSiteRef)

namespace Entry

/-- The method whose call is recorded. -/
def caller : Entry → MethodRef
  | sites caller _ => caller
  | invocation _ site => site.caller

/-- The method whose record changes. -/
def target : Entry → MethodRef
  | sites caller _ => caller
  | invocation callee _ => callee

/-- What becomes of the record. -/
def change : Entry → MethodCalls → MethodCalls
  | sites _ change, c => { c with sites := change c.sites }
  | invocation _ site, c => invoke c site

/-- Makes the change. -/
def enter (g : CallGraph) (e : Entry) : CallGraph := g.put e.target (e.change (g.calls e.target))

theorem invoke_comm (c : MethodCalls) (site site' : CallSiteRef) :
    invoke (invoke c site) site' = invoke (invoke c site') site := by
  have hset : (c.invocations.insert site).insert site' =
      (c.invocations.insert site').insert site :=
    SortedSet.ext_mem fun ref => by simp only [SortedSet.mem_insert, or_left_comm]
  exact congrArg (MethodCalls.mk c.sites · c.isRoot) hset

/-- Changes for different callers do not get in each other's way, even in one
record. -/
theorem change_comm {e e' : Entry} (hcaller : e.caller ≠ e'.caller) (htarget : e.target = e'.target)
    (c : MethodCalls) : e'.change (e.change c) = e.change (e'.change c) := by
  cases e with
  | sites caller change =>
      cases e' with
      | sites caller' change' => exact absurd htarget hcaller
      | invocation callee' site' => rfl
  | invocation callee site =>
      cases e' with
      | sites caller' change' => rfl
      | invocation callee' site' => exact invoke_comm c site site'

theorem comm {e e' : Entry} (hcaller : e.caller ≠ e'.caller) (g : CallGraph) :
    enter (enter g e) e' = enter (enter g e') e := by
  refine ext_calls? (fun x => ?_) rfl
  simp only [enter, calls?_put, calls_put]
  by_cases htarget : e.target = e'.target
  · simp only [htarget, if_true]
    by_cases hx : x = e'.target
    · simp only [hx, if_true, change_comm hcaller htarget]
    · simp only [hx, if_false]
  · by_cases hx : x = e.target
    · subst hx
      simp only [if_true, if_neg htarget, if_neg (Ne.symm htarget)]
    · simp only [hx, htarget, if_false, Ne.symm htarget]

end Entry

/-- The entries for a call of a method. -/
def callEntries (u : Universe) (h : Hierarchy) (m : MethodRef)
    (call : String × MethodRef × Dispatch) : List Entry :=
  .sites m (fun sites => sites.insert call.1 ((sites.get? call.1).getD ⟨call.1, call.2.1, .empty⟩))
    :: (u.resolve h call.2.1 call.2.2).toList.flatMap fun c =>
      [.sites m fun sites =>
          sites.modify call.1 fun s => { s with callees := s.callees.insert c },
        .invocation c ⟨m, call.1⟩]

/-- The entries for a method: its record, if it has none yet, and its calls. -/
def methodEntries (u : Universe) (h : Hierarchy) (m : MethodRef) : List Entry :=
  .sites m id :: (u.callsOf m).flatMap (callEntries u h m)

/-- Records a method and the calls of its body, which never fails. -/
def record (u : Universe) (h : Hierarchy) (g : CallGraph) (m : MethodRef) : CallGraph :=
  (methodEntries u h m).foldl Entry.enter g

theorem addCall_eq_entries :
    addCall u h m g call = .ok ((callEntries u h m call).foldl Entry.enter g) := by
  rw [addCall_eq, callEntries, List.foldl_cons, List.foldl_flatMap]
  rfl

theorem addMethod_eq : addMethod u h g m = .ok (record u h g m) := by
  have hcalls := @foldlM_eq_ok Error _ _ (addCall u h m)
    (fun g call => (callEntries u h m call).foldl Entry.enter g) (fun _ => True) (u.callsOf m)
    (fun _ _ _ _ => ⟨addCall_eq_entries, trivial⟩) (g.touch m) trivial
  rw [addMethod, hcalls.1, record, methodEntries, List.foldl_cons, List.foldl_flatMap]
  rfl

theorem caller_of_mem_methodEntries {e : Entry} (he : e ∈ methodEntries u h m) : e.caller = m := by
  rcases List.mem_cons.1 he with rfl | he
  · rfl
  · obtain ⟨call, -, he⟩ := List.mem_flatMap.1 he
    rcases List.mem_cons.1 he with rfl | he
    · rfl
    · obtain ⟨c, -, he⟩ := List.mem_flatMap.1 he
      rcases List.mem_pair.1 he with rfl | rfl <;> rfl

/-- What is recorded for two methods may be exchanged. -/
theorem record_comm (hne : m ≠ x) (g : CallGraph) :
    record u h (record u h g m) x = record u h (record u h g x) m := by
  refine foldl_comm (fun e he e' he' => ?_) g
  rw [← caller_of_mem_methodEntries he, ← caller_of_mem_methodEntries he'] at hne
  exact Entry.comm hne

/-- Methods may be recorded in any order. -/
theorem foldl_record_perm {methods methods' : List MethodRef} (hperm : methods.Perm methods')
    (g : CallGraph) : methods.foldl (record u h) g = methods'.foldl (record u h) g := by
  refine hperm.foldl_eq' (fun x _ y _ g => ?_) g
  by_cases hxy : x = y
  · rw [hxy]
  · exact record_comm hxy g

end CallGraph

/-! ## The worklist -/

/-- The construction of a call graph under way. -/
structure CallSearch where
  graph : CallGraph
  visited : SortedSet MethodRef
  /-- The methods still to be visited, the next one first. -/
  work : List MethodRef

namespace CallSearch

open CallGraph

variable {u : Universe} {h : Hierarchy} {roots found rest : List MethodRef} {s : CallSearch}
  {m : MethodRef}

/-- Begins with a root, which must be declared. -/
def addRoot (u : Universe) (s : CallSearch) (m : MethodRef) : Except Error CallSearch :=
  if (u.method? m).isNone then .error (.methodNotFound m)
  else .ok ⟨s.graph.addRoot m, s.visited, m :: s.work⟩

/-- Begins with all roots, one after the other. -/
def begin (u : Universe) (roots : List MethodRef) : Except Error CallSearch :=
  roots.foldlM (addRoot u) ⟨.empty, .empty, []⟩

/-- Records a call of a method.  Its callees that have not been visited come
next, the last of them first. -/
def addCall (u : Universe) (h : Hierarchy) (m : MethodRef) (s : CallSearch)
    (call : String × MethodRef × Dispatch) : Except Error CallSearch :=
  let graph := s.graph.addSite m call.1 call.2.1
  let callees := (u.resolve h call.2.1 call.2.2).toList
  let work := (callees.filter fun c => !s.visited.contains c).reverse ++ s.work
  (graph.addCallees m call.1 callees).map fun graph => ⟨graph, s.visited, work⟩

/-- Visits the next method, if it has not been visited. -/
def advance? (u : Universe) (h : Hierarchy) (s : CallSearch) : Except Error (Option CallSearch) :=
  match s.work with
  | [] => .ok none
  | m :: rest =>
    if s.visited.contains m then .ok (some ⟨s.graph, s.visited, rest⟩)
    else
      ((u.callsOf m).foldlM (addCall u h m) ⟨s.graph.touch m, s.visited.insert m, rest⟩).map some

/-- The construction leads from one state to the other. -/
def Runs (u : Universe) (h : Hierarchy) : CallSearch → CallSearch → Prop :=
  Relation.ReflTransGen fun s s' => advance? u h s = .ok (some s')

/-! ## One method -/

theorem addCall_eq {call : String × MethodRef × Dispatch} :
    addCall u h m s call = .ok ⟨(callEntries u h m call).foldl Entry.enter s.graph, s.visited,
      ((u.resolve h call.2.1 call.2.2).toList.filter fun c => !s.visited.contains c).reverse
        ++ s.work⟩ := by
  have hgraph := @addCall_eq_entries u h s.graph m call
  rw [CallGraph.addCall] at hgraph
  rw [addCall, hgraph]
  rfl

/-- The calls of a method are recorded, and its callees put on the worklist. -/
theorem foldlM_addCall (calls : List (String × MethodRef × Dispatch)) (s : CallSearch) :
    calls.foldlM (addCall u h m) s =
      .ok ⟨(calls.flatMap (callEntries u h m)).foldl Entry.enter s.graph, s.visited,
        ((calls.flatMap fun call => (u.resolve h call.2.1 call.2.2).toList).filter
          fun c => !s.visited.contains c).reverse ++ s.work⟩ := by
  induction calls generalizing s with
  | nil => rfl
  | cons call calls ih =>
      rw [List.foldlM_cons, addCall_eq]
      refine (ih _).trans ?_
      simp only [List.flatMap_cons, List.foldl_append, List.filter_append, List.reverse_append,
        List.append_assoc]

/-- To visit a method is to record it. -/
theorem advance?_of_not_mem (hwork : s.work = m :: rest) (hm : s.visited.contains m = false) :
    advance? u h s = .ok (some ⟨record u h s.graph m, s.visited.insert m,
      ((u.calleesOf h m).filter fun c => !(s.visited.insert m).contains c).reverse ++ rest⟩) := by
  have hvisit : advance? u h s = ((u.callsOf m).foldlM (addCall u h m)
      ⟨s.graph.touch m, s.visited.insert m, rest⟩).map some := by
    simp only [advance?, hwork, hm, Bool.false_eq_true, if_false]
  rw [hvisit, foldlM_addCall, Universe.calleesOf, record, methodEntries, List.foldl_cons]
  rfl

theorem advance?_of_mem (hwork : s.work = m :: rest) (hm : s.visited.contains m = true) :
    advance? u h s = .ok (some ⟨s.graph, s.visited, rest⟩) := by
  simp only [advance?, hwork, hm, if_true]

/-! ## The run -/

/-- What the construction has found is what it has visited, and the graph
records these methods. -/
structure Shows (u : Universe) (h : Hierarchy) (roots : List MethodRef) (s : CallSearch)
    (w : Worklist MethodRef) : Prop where
  work : s.work = w.work
  visited : ∀ m, s.visited.contains m = true ↔ m ∈ w.found
  graph : s.graph = w.found.reverse.foldl (record u h) (roots.foldl CallGraph.addRoot .empty)
  pool : ∀ m ∈ w.work, m ∈ (SortedSet.ofList (roots ++ u.allCallees h)).toList

theorem Shows.step (hs : Shows u h roots s ⟨found, m :: rest⟩) :
    ∃ s' w', advance? u h s = .ok (some s') ∧ Shows u h roots s' w' ∧
      Worklist.Step (u.calleesOf h) (SortedSet.ofList (roots ++ u.allCallees h)).toList
        ⟨found, m :: rest⟩ w' := by
  have hrest : ∀ x ∈ rest, x ∈ (SortedSet.ofList (roots ++ u.allCallees h)).toList := fun x hx =>
    hs.pool x (List.mem_cons_of_mem m hx)
  cases hold : s.visited.contains m with
  | true =>
      exact ⟨_, ⟨found, rest⟩, advance?_of_mem hs.work hold, ⟨rfl, hs.visited, hs.graph, hrest⟩,
        .skip fun _ => (hs.visited m).1 hold⟩
  | false =>
      have hnew : m ∉ found := fun hmem => by
        rw [(hs.visited m).2 hmem] at hold
        cases hold
      have hvisited : ∀ x, (s.visited.insert m).contains x = true ↔ x ∈ m :: found := fun x => by
        rw [SortedSet.contains_iff_mem, SortedSet.mem_insert, ← SortedSet.contains_iff_mem,
          hs.visited, List.mem_cons]
      have hmore : ∀ x, x ∈ ((u.calleesOf h m).filter
          fun c => !(s.visited.insert m).contains c).reverse ↔
            x ∈ u.calleesOf h m ∧ x ∉ m :: found := fun x => by
        rw [List.mem_reverse, List.mem_filter, Bool.not_eq_true', ← hvisited, Bool.not_eq_true]
      refine ⟨_, ⟨m :: found, _ ++ rest⟩, advance?_of_not_mem hs.work hold,
        ⟨rfl, hvisited, ?_, fun x hx => ?_⟩, .find (hs.pool m List.mem_cons_self) hnew
          (fun x hx => ((hmore x).1 hx).1) fun x hx _ => ?_⟩
      · rw [hs.graph, List.reverse_cons, List.foldl_append]
        rfl
      · rcases List.mem_append.1 hx with hx | hx
        · exact SortedSet.mem_ofList.2 (List.mem_append_right _
            (Universe.mem_allCallees (Universe.mem_calleesOf.1 ((hmore x).1 hx).1)))
        · exact hrest x hx
      · by_cases hfound : x ∈ m :: found
        · exact .inl hfound
        · exact .inr (List.mem_append_left rest ((hmore x).2 ⟨hx, hfound⟩))

/-- Roots that are declared are all put on the worklist. -/
theorem foldlM_addRoot (hroots : ∀ m ∈ roots, (u.method? m).isSome) (s : CallSearch) :
    roots.foldlM (addRoot u) s =
      .ok ⟨roots.foldl CallGraph.addRoot s.graph, s.visited, roots.reverse ++ s.work⟩ := by
  induction roots generalizing s with
  | nil => rfl
  | cons m roots ih =>
      obtain ⟨hm, hroots⟩ := List.forall_mem_cons.1 hroots
      have hdeclared : ¬ (u.method? m).isNone = true := by
        simpa using Option.isSome_iff_ne_none.1 hm
      rw [List.foldlM_cons, addRoot, if_neg hdeclared]
      refine (ih hroots _).trans ?_
      rw [List.reverse_cons, List.append_assoc]
      rfl

theorem shows_begin (u : Universe) (h : Hierarchy) (roots : List MethodRef) :
    Shows u h roots ⟨roots.foldl CallGraph.addRoot .empty, .empty, roots.reverse ++ []⟩
      ⟨[], roots.reverse ++ []⟩ := by
  refine ⟨rfl, fun m => ?_, rfl, fun m hm => ?_⟩
  · rw [SortedSet.contains_iff_mem]
    exact iff_of_false (SortedSet.not_mem_empty m) List.not_mem_nil
  · rw [List.append_nil, List.mem_reverse] at hm
    exact SortedSet.mem_ofList.2 (List.mem_append_left _ hm)

theorem begin_eq_error {front back : List MethodRef}
    (hfront : ∀ r ∈ front, (u.method? r).isSome) (hm : u.method? m = none) :
    begin u (front ++ m :: back) = .error (.methodNotFound m) := by
  rw [begin, List.foldlM_append, foldlM_addRoot hfront]
  show List.foldlM (addRoot u) _ (m :: back) = _
  rw [List.foldlM_cons, addRoot, if_pos (by rw [hm]; rfl)]
  rfl

end CallSearch

namespace CallGraph

variable {u : Universe} {h : Hierarchy} {roots : List MethodRef}

/-- **The worklist builds the call graph.**  It begins whenever every root is
declared, and otherwise fails as the construction does.  Once begun it never
fails; it comes to an empty worklist, and the graph is then the one built. -/
theorem runs_build (u : Universe) (h : Hierarchy) (roots : List MethodRef) :
    (∀ e, build u h roots = .error e ↔ CallSearch.begin u roots = .error e) ∧
      ∀ s, CallSearch.begin u roots = .ok s →
        ∃ s', CallSearch.Runs u h s s' ∧ s'.work = [] ∧ build u h roots = .ok s'.graph := by
  cases hbuild : build u h roots with
  | error e =>
      obtain ⟨front, m, back, rfl, hfront, hm, rfl⟩ := build_eq_error_iff.1 hbuild
      rw [CallSearch.begin_eq_error hfront hm]
      exact ⟨fun e => by rw [Except.error.injEq, Except.error.injEq], fun s hs => nomatch hs⟩
  | ok g =>
      have hroots : ∀ m ∈ roots, (u.method? m).isSome := by
        intro m hm
        unfold build at hbuild
        split at hbuild
        · cases hbuild
        · next hfind => simpa [Option.isSome_iff_ne_none] using List.find?_eq_none.1 hfind m hm
      have hbegin : CallSearch.begin u roots =
          .ok ⟨roots.foldl addRoot .empty, .empty, roots.reverse ++ []⟩ :=
        CallSearch.foldlM_addRoot hroots _
      rw [hbegin]
      refine ⟨fun e => by simp, ?_⟩
      rintro s ⟨⟩
      have hmem : ∀ m ∈ (SortedSet.ofList (roots ++ u.allCallees h)).toList,
          m ∈ roots.reverse ++ [] ↔ m ∈ roots := by simp
      obtain ⟨s', found, hrun, hs', hend⟩ := Worklist.Searching.exists_end
        (fun s found m rest (hs : CallSearch.Shows u h roots s ⟨found, m :: rest⟩) _ => hs.step)
        (.start hmem) (CallSearch.shows_begin u h roots)
      refine ⟨s', hrun, hs'.work, ?_⟩
      have hperm : found.reverse.Perm (u.reached h roots) :=
        found.reverse_perm.trans (hend.perm_explore (SortedSet.nodup_toList _))
      have hrecord := @foldlM_eq_ok Error _ _ (addMethod u h) (record u h) (fun _ => True)
        (u.reached h roots) (fun _ _ _ _ => ⟨addMethod_eq, trivial⟩) (roots.foldl addRoot .empty)
        trivial
      rw [hs'.graph, foldl_record_perm hperm, ← hrecord.1, foldlM_of_build hbuild]

end CallGraph

end MethodFlow
