import MethodFlow.Calls.Graph
import MethodFlow.Proofs.Data.Folds

/-!
# What call graphs record

A call graph changes record by record: a method is given one, a call site is
put into that of its caller, and a callee is entered at both ends.  What such a
change means is told by what can be asked afterwards: which methods have a
record, what stands at a call site, and which methods are roots.  Each change
is described here by its effect on these questions, and on nothing else.

A call site keeps the target that it was given first.  So what stands at a
label depends on the order of the changes; which methods are callees does not.

## Main results

* `CallGraph.site?_addSite`, `CallGraph.site?_links`: what stands at a call
  site after a change.
* `CallGraph.mem_keys_addSite`, `CallGraph.mem_keys_links`: which methods have a
  record.
* `CallGraph.callsAt_addSite`, `CallGraph.callsAt_links`: which methods a call
  site may call.
-/

namespace MethodFlow

/-! ## Call sites -/

namespace CallSite

/-- The call site with more callees. -/
def extend (s : CallSite) (callees : List MethodRef) : CallSite :=
  { s with callees := callees.foldl SortedSet.insert s.callees }

theorem mem_extend {s : CallSite} {callees : List MethodRef} {c : MethodRef} :
    c ∈ (s.extend callees).callees ↔ c ∈ s.callees ∨ c ∈ callees :=
  foldl_adds (Q := (c ∈ ·)) (fun _ _ => SortedSet.mem_insert) callees

/-- A call site without callees has those it is given. -/
theorem extend_empty (label : String) (target : MethodRef) (callees : SortedSet MethodRef) :
    extend ⟨label, target, .empty⟩ callees.toList = ⟨label, target, callees⟩ := by
  have hset : (extend ⟨label, target, .empty⟩ callees.toList).callees = callees :=
    SortedSet.ext_mem fun c => by simp [mem_extend]
  exact congrArg (CallSite.mk label target) hset

end CallSite

namespace CallGraph

variable {g g' : CallGraph} {m x caller callee target c : MethodRef} {l label : String}
  {record : MethodCalls}

/-! ## One record replaced -/

theorem calls_put : (g.put m record).calls x = if x = m then record else g.calls x := by
  show ((g.methods.insert m record).get? x).getD .empty = _
  rw [SortedMap.get?_insert]
  split
  · rfl
  · rfl

theorem mem_keys_put : x ∈ (g.put m record).methods.keys ↔ x = m ∨ x ∈ g.methods.keys := by
  rw [SortedMap.mem_keys_iff, SortedMap.mem_keys_iff]
  show (∃ v, (g.methods.insert m record).get? x = some v) ↔ _
  rw [SortedMap.get?_insert]
  by_cases hx : x = m
  · simp [hx]
  · simp [hx]

theorem site?_eq : g.site? m l = (g.calls m).sites.get? l := by
  unfold site? calls
  cases g.calls? m with
  | none => rfl
  | some _ => rfl

theorem site?_put :
    (g.put m record).site? x l = if x = m then record.sites.get? l else g.site? x l := by
  rw [site?_eq, calls_put]
  split
  · rfl
  · exact site?_eq.symm

/-- A record with the same call sites changes no call site. -/
theorem site?_put_of_sites (hsites : record.sites = (g.calls m).sites) :
    (g.put m record).site? x l = g.site? x l := by
  rw [site?_put, hsites]
  split
  · next hx => rw [hx, site?_eq]
  · rfl

/-! ## The changes -/

theorem site?_touch : (g.touch m).site? x l = g.site? x l := site?_put_of_sites rfl

theorem site?_addRoot : (g.addRoot m).site? x l = g.site? x l := site?_put_of_sites rfl

theorem mem_keys_addRoot : x ∈ (g.addRoot m).methods.keys ↔ x = m ∨ x ∈ g.methods.keys :=
  mem_keys_put

theorem site?_addSite :
    (g.addSite caller label target).site? x l =
      if x = caller ∧ l = label then
        some ((g.site? caller label).getD ⟨label, target, .empty⟩)
      else g.site? x l := by
  unfold addSite
  rw [site?_put, SortedMap.get?_insert]
  by_cases hx : x = caller
  · subst hx
    simp [site?_eq]
  · simp [hx]

theorem mem_keys_addSite :
    x ∈ (g.addSite caller label target).methods.keys ↔ x = caller ∨ x ∈ g.methods.keys :=
  mem_keys_put

theorem site?_link :
    (g.link caller label callee).site? x l =
      if x = caller ∧ l = label then
        (g.site? caller label).map (·.extend [callee])
      else g.site? x l := by
  have hcallee : (g.link caller label callee).site? x l =
      (g.put caller (attach (g.calls caller) label callee)).site? x l :=
    site?_put_of_sites rfl
  rw [hcallee, site?_put, attach, SortedMap.get?_modify]
  by_cases hx : x = caller
  · subst hx
    simp only [site?_eq, true_and, if_true]
    rfl
  · simp [hx]

theorem mem_keys_link :
    x ∈ (g.link caller label callee).methods.keys ↔
      x = callee ∨ x = caller ∨ x ∈ g.methods.keys :=
  mem_keys_put.trans (or_congr_right mem_keys_put)

/-! ## Roots and callees added one after the other -/

theorem site?_addRoots (roots : List MethodRef) :
    (roots.foldl addRoot g).site? x l = g.site? x l := by
  induction roots generalizing g with
  | nil => rfl
  | cons root roots ih => rw [List.foldl_cons, ih, site?_addRoot]

theorem mem_keys_addRoots (roots : List MethodRef) :
    x ∈ (roots.foldl addRoot g).methods.keys ↔ x ∈ g.methods.keys ∨ x ∈ roots :=
  foldl_adds (Q := fun g : CallGraph => x ∈ g.methods.keys) (fun _ _ => mem_keys_addRoot) roots

theorem mem_roots_addRoots (roots : List MethodRef) :
    x ∈ (roots.foldl addRoot g).roots ↔ x ∈ g.roots ∨ x ∈ roots :=
  foldl_adds (Q := fun g : CallGraph => x ∈ g.roots) (fun _ _ => SortedSet.mem_insert) roots

theorem site?_links (callees : List MethodRef) :
    (callees.foldl (fun g m => g.link caller label m) g).site? x l =
      if x = caller ∧ l = label then (g.site? caller label).map (·.extend callees)
      else g.site? x l := by
  induction callees generalizing g with
  | nil =>
      split
      · next hx =>
        rw [hx.1, hx.2]
        exact Option.map_id'.symm
      · rfl
  | cons callee callees ih =>
      rw [List.foldl_cons, ih, site?_link, site?_link]
      split
      · rw [if_pos ⟨rfl, rfl⟩, Option.map_map]
        rfl
      · rfl

theorem mem_keys_links (callees : List MethodRef) (hcaller : caller ∈ g.methods.keys) :
    x ∈ (callees.foldl (fun g m => g.link caller label m) g).methods.keys ↔
      x ∈ g.methods.keys ∨ x ∈ callees := by
  have hfold := @foldl_iff MethodRef CallGraph (fun g m => g.link caller label m)
    (caller ∈ ·.methods.keys) (x ∈ ·.methods.keys) (x = ·) callees
    (fun _ _ _ h => mem_keys_link.2 (.inr (.inr h))) ?_ g hcaller
  · simpa using hfold
  · intro g callee _ hmem
    rw [mem_keys_link]
    constructor
    · rintro (rfl | rfl | h)
      · exact .inr rfl
      · exact .inl hmem
      · exact .inl h
    · rintro (h | rfl)
      · exact .inr (.inr h)
      · exact .inl rfl

theorem roots_links (callees : List MethodRef) :
    (callees.foldl (fun g m => g.link caller label m) g).roots = g.roots := by
  induction callees generalizing g with
  | nil => rfl
  | cons callee callees ih =>
      rw [List.foldl_cons, ih]
      rfl

/-! ## Callees -/

/-- A call site may call `c`. -/
def CallsAt (g : CallGraph) (m : MethodRef) (label : String) (c : MethodRef) : Prop :=
  ∃ site, g.site? m label = some site ∧ c ∈ site.callees

theorem mem_callees : c ∈ g.callees m ↔ ∃ label, g.CallsAt m label c := by
  simp only [callees, SortedSet.mem_ofList, List.mem_flatMap, SortedSet.mem_toList,
    SortedMap.values, List.mem_map, CallsAt, site?_eq, SortedMap.get?_eq_some_iff]
  constructor
  · rintro ⟨_, ⟨⟨label, site⟩, hmem, rfl⟩, hc⟩
    exact ⟨label, site, hmem, hc⟩
  · rintro ⟨label, site, hmem, hc⟩
    exact ⟨site, ⟨(label, site), hmem, rfl⟩, hc⟩

theorem mem_callees_congr (hsites : ∀ l, g'.site? x l = g.site? x l) :
    c ∈ g'.callees x ↔ c ∈ g.callees x := by
  simp only [mem_callees, CallsAt, hsites]

/-- A new call site has no callees. -/
theorem callsAt_addSite :
    (g.addSite caller label target).CallsAt x l c ↔ g.CallsAt x l c := by
  unfold CallsAt
  rw [site?_addSite]
  split
  · next hx =>
    obtain ⟨rfl, rfl⟩ := hx
    cases g.site? x l with
    | none => simp
    | some site => simp
  · rfl

theorem callsAt_links (callees : List MethodRef) (hsite : (g.site? caller label).isSome) :
    (callees.foldl (fun g m => g.link caller label m) g).CallsAt x l c ↔
      g.CallsAt x l c ∨ x = caller ∧ l = label ∧ c ∈ callees := by
  obtain ⟨site, hsome⟩ := Option.isSome_iff_exists.1 hsite
  unfold CallsAt
  rw [site?_links]
  by_cases hx : x = caller ∧ l = label
  · obtain ⟨rfl, rfl⟩ := hx
    simp [hsome, CallSite.mem_extend]
  · rw [if_neg hx]
    refine (or_iff_left fun hnew => hx ⟨hnew.1, hnew.2.1⟩).symm

end CallGraph

end MethodFlow
