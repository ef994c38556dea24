import Mathlib.Algebra.BigOperators.Group.Finset.Piecewise
import MethodFlow.Proofs.Graph.Digraph

/-!
# What a graph tells of the calls that made it

A graph keeps its edges three times: at the source with the payload, at the
target, and as a count.  All three are functions of one thing, the list of the
edge calls that have succeeded.  A `Digraph.History` is a graph together with
that list, and `History.Faithful` says which functions: neighbours are the
ends of these calls without repetition, in the order in which they first
occur, and the payload is that of the first call for the pair.  Every call
keeps this, one that fails because it changes nothing, and one for a pair that
has an edge because only repetitions are added to the list.

## Main results

* `Digraph.successors_connect`, `Digraph.predecessors_connect`: what adding an
  edge does at either end.
* `Digraph.History.Faithful.call`: one call.
* `Digraph.history_told`: any sequence of calls.
-/

namespace MethodFlow

namespace Digraph

variable {ν ε : Type} {g : Digraph ν ε} {s t : Nat}

/-- A call that may change a graph. -/
inductive Call (ν ε : Type) where
  | addNode (data : ν)
  | addEdge (source target : NodeId) (data : ε)

/-- A graph with the edges of the calls that have succeeded on the way to it,
in the order of the calls. -/
structure History (ν ε : Type) where
  graph : Digraph ν ε
  accepted : List (NodeId × NodeId × ε)

namespace History

/-- One more call.  A call that fails leaves everything as it is; adding an
edge that the graph has already is a success. -/
def call (h : History ν ε) : Call ν ε → History ν ε
  | .addNode data => { h with graph := h.graph.addNode data }
  | .addEdge s t data =>
    match h.graph.addEdge s t data with
    | .ok (g, _) => ⟨g, h.accepted ++ [(s, t, data)]⟩
    | .error _ => h

/-- What a sequence of calls makes of the graph without nodes. -/
def ofCalls (calls : List (Call ν ε)) : History ν ε := calls.foldl call ⟨.empty, []⟩

end History

/-! ## Lists of accepted edges -/

/-- The targets of the edges that leave `s`, with repetitions. -/
def targetsOf (s : NodeId) (edges : List (NodeId × NodeId × ε)) : List NodeId :=
  (edges.filter fun e => e.1 == s).map fun e => e.2.1

/-- The sources of the edges that reach `t`, with repetitions. -/
def sourcesOf (t : NodeId) (edges : List (NodeId × NodeId × ε)) : List NodeId :=
  (edges.filter fun e => e.2.1 == t).map fun e => e.1

/-- The payload of the first edge from `s` to `t`. -/
def firstPayload? (s t : NodeId) (edges : List (NodeId × NodeId × ε)) : Option ε :=
  (edges.find? fun e => e.1 == s && e.2.1 == t).map fun e => e.2.2

variable {edges : List (NodeId × NodeId × ε)}

theorem mem_targetsOf : t ∈ targetsOf s edges ↔ ∃ data, (s, t, data) ∈ edges := by
  simp [targetsOf]

theorem mem_sourcesOf : s ∈ sourcesOf t edges ↔ ∃ data, (s, t, data) ∈ edges := by
  simp [sourcesOf]

theorem targetsOf_concat (edges : List (NodeId × NodeId × ε)) (m : NodeId) (data : ε) :
    targetsOf m (edges ++ [(s, t, data)]) =
      if m = s then targetsOf m edges ++ [t] else targetsOf m edges := by
  by_cases hm : m = s
  · simp [targetsOf, hm]
  · have hsm : ¬ s = m := fun h => hm h.symm
    simp [targetsOf, hm, hsm]

theorem sourcesOf_concat (edges : List (NodeId × NodeId × ε)) (n : NodeId) (data : ε) :
    sourcesOf n (edges ++ [(s, t, data)]) =
      if n = t then sourcesOf n edges ++ [s] else sourcesOf n edges := by
  by_cases hn : n = t
  · simp [sourcesOf, hn]
  · have htn : ¬ t = n := fun h => hn h.symm
    simp [sourcesOf, hn, htn]

/-- An element at the end counts only if it has not occurred. -/
theorem eraseDups_concat (l : List NodeId) (a : NodeId) :
    (l ++ [a]).eraseDups = if a ∈ l then l.eraseDups else l.eraseDups ++ [a] := by
  rw [List.eraseDups_append]
  by_cases ha : a ∈ l <;> simp [List.removeAll, ha, List.eraseDups_cons]

/-! ## What adding an edge does -/

theorem successors_connect (hs : s < g.size) (data : ε) (m : NodeId) :
    (g.connect s t data).successors m =
      if m = s ∧ t ∉ g.successors s then g.successors m ++ [t] else g.successors m := by
  unfold connect
  by_cases hold : t ∈ g.successors s
  · rw [if_pos (hasEdge_iff.2 hold), if_neg fun h => h.2 hold]
  · rw [if_neg fun h => hold (hasEdge_iff.1 h)]
    unfold successors at hold ⊢
    rw [outgoing_link hs]
    by_cases hm : m = s <;> simp [hm, hold]

theorem predecessors_connect (ht : t < g.size) (data : ε) (n : NodeId) :
    (g.connect s t data).predecessors n =
      if n = t ∧ t ∉ g.successors s then g.predecessors n ++ [s] else g.predecessors n := by
  unfold connect
  by_cases hold : t ∈ g.successors s
  · rw [if_pos (hasEdge_iff.2 hold), if_neg fun h => h.2 hold]
  · rw [if_neg fun h => hold (hasEdge_iff.1 h), predecessors_link ht]
    by_cases hn : n = t <;> simp [hn, hold]

theorem exists_addEdge_iff {data : ε} :
    (∃ result, g.addEdge s t data = .ok result) ↔ s < g.size ∧ t < g.size := by
  constructor
  · rintro ⟨⟨g', new⟩, hok⟩
    exact ⟨(addEdge_eq_ok hok).1, (addEdge_eq_ok hok).2.1⟩
  · rintro ⟨hs, ht⟩
    rw [addEdge, if_neg (Nat.not_le.2 hs), if_neg (Nat.not_le.2 ht)]
    exact ⟨_, rfl⟩

theorem edgeCount_connect (g : Digraph ν ε) (s t : NodeId) (data : ε) :
    (g.connect s t data).edgeCount =
      g.edgeCount + if t ∉ g.successors s then 1 else 0 := by
  unfold connect
  by_cases hold : t ∈ g.successors s
  · rw [if_pos (hasEdge_iff.2 hold), if_neg fun h => h hold, Nat.add_zero]
  · rw [if_neg fun h => hold (hasEdge_iff.1 h), if_pos hold]
    rfl

theorem outDegree_connect (hs : s < g.size) (data : ε) (m : NodeId) :
    (g.connect s t data).outDegree m =
      g.outDegree m + if m = s then (if t ∉ g.successors s then 1 else 0) else 0 := by
  have hlength : ∀ (g : Digraph ν ε) (m : NodeId), g.outDegree m = (g.successors m).length := by
    intro g m
    simp [outDegree, successors]
  rw [hlength, hlength, successors_connect hs]
  by_cases hm : m = s <;> by_cases hnew : t ∉ g.successors s <;> simp [hm, hnew]

theorem inDegree_connect (ht : t < g.size) (data : ε) (n : NodeId) :
    (g.connect s t data).inDegree n =
      g.inDegree n + if n = t then (if t ∉ g.successors s then 1 else 0) else 0 := by
  rw [inDegree, inDegree, predecessors_connect ht]
  by_cases hn : n = t <;> by_cases hnew : t ∉ g.successors s <;> simp [hn, hnew]

/-- A degree that grows at one node only makes the sum of the degrees grow by
as much. -/
theorem sum_range_of_grows {size n growth : Nat} {f f' : Nat → Nat} (hn : n < size)
    (h : ∀ i, f' i = f i + if i = n then growth else 0) :
    ∑ i ∈ Finset.range size, f' i = ∑ i ∈ Finset.range size, f i + growth := by
  simp only [h, Finset.sum_add_distrib, Finset.sum_ite_eq', Finset.mem_range, if_pos hn]

theorem length_edges (g : Digraph ν ε) :
    g.edges.length = ∑ n ∈ Finset.range g.size, g.outDegree n := by
  have hdegree : g.edges.length = ((List.range g.size).map g.outDegree).sum := by
    rw [edges, List.length_flatMap]
    congr 1
    refine List.map_congr_left fun n _ => ?_
    rw [List.length_map, outDegree]
  rw [hdegree]
  rfl

/-! ## One call after the other -/

namespace History

variable {h : History ν ε}

/-- The graph is what its accepted edges make it. -/
structure Faithful (h : History ν ε) : Prop where
  built : h.graph.Built
  successors_eq : ∀ s, h.graph.successors s = (targetsOf s h.accepted).eraseDups
  predecessors_eq : ∀ t, h.graph.predecessors t = (sourcesOf t h.accepted).eraseDups
  edge?_eq : ∀ s t, h.graph.edge? s t = firstPayload? s t h.accepted
  sum_outDegree : h.graph.edgeCount = ∑ n ∈ Finset.range h.graph.size, h.graph.outDegree n
  sum_inDegree : h.graph.edgeCount = ∑ n ∈ Finset.range h.graph.size, h.graph.inDegree n

theorem Faithful.mem_successors (hh : h.Faithful) :
    t ∈ h.graph.successors s ↔ ∃ data, (s, t, data) ∈ h.accepted := by
  rw [hh.successors_eq, List.mem_eraseDups, mem_targetsOf]

theorem faithful_start : (⟨.empty, []⟩ : History ν ε).Faithful where
  built := .empty
  successors_eq _ := rfl
  predecessors_eq _ := rfl
  edge?_eq _ _ := rfl
  sum_outDegree := rfl
  sum_inDegree := rfl

theorem Faithful.addNode (hh : h.Faithful) (data : ν) : (h.call (.addNode data)).Faithful := by
  have hsuccessors : ∀ s, (h.graph.addNode data).successors s = h.graph.successors s := by
    intro s
    rw [successors, outgoing_addNode, successors]
  have hbehind : h.graph.outgoing h.graph.size = [] ∧ h.graph.predecessors h.graph.size = [] := by
    have hnone : h.graph.nodes[h.graph.size]? = none := Array.getElem?_eq_none (Nat.le_refl _)
    simp [outgoing, predecessors, hnone]
  refine ⟨hh.built.addNode data, fun s => ?_, fun t => ?_, fun s t => ?_, ?_, ?_⟩
  · exact (hsuccessors s).trans (hh.successors_eq s)
  · exact (predecessors_addNode _ _ t).trans (hh.predecessors_eq t)
  · show (h.graph.addNode data).edge? s t = firstPayload? s t h.accepted
    rw [← hh.edge?_eq, edge?, outgoing_addNode, edge?]
  · show h.graph.edgeCount = _
    rw [hh.sum_outDegree]
    simp only [call, size_addNode, Finset.sum_range_succ, outDegree, outgoing_addNode,
      hbehind.1, List.length_nil, Nat.add_zero]
  · show h.graph.edgeCount = _
    rw [hh.sum_inDegree]
    simp only [call, size_addNode, Finset.sum_range_succ, inDegree, predecessors_addNode,
      hbehind.2, List.length_nil, Nat.add_zero]

/-- A call that succeeds adds its edge, unless the pair occurs among the
accepted edges; then it adds only a repetition. -/
theorem Faithful.connect (hh : h.Faithful) (hs : s < h.graph.size) (ht : t < h.graph.size)
    (data : ε) :
    (⟨h.graph.connect s t data, h.accepted ++ [(s, t, data)]⟩ : History ν ε).Faithful := by
  have hold : t ∈ h.graph.successors s ↔ ∃ data, (s, t, data) ∈ h.accepted := hh.mem_successors
  have htargets : t ∈ targetsOf s h.accepted ↔ t ∈ h.graph.successors s := by
    rw [mem_targetsOf, hold]
  have hsources : s ∈ sourcesOf t h.accepted ↔ t ∈ h.graph.successors s := by
    rw [mem_sourcesOf, hold]
  refine ⟨built_connect hh.built hs ht data, fun m => ?_, fun n => ?_, fun m n => ?_, ?_, ?_⟩
  · rw [successors_connect hs, targetsOf_concat, hh.successors_eq m]
    by_cases hm : m = s
    · subst hm
      rw [if_pos rfl, eraseDups_concat]
      by_cases hmem : t ∈ h.graph.successors m <;> simp [hmem, htargets]
    · simp [hm]
  · rw [predecessors_connect ht, sourcesOf_concat, hh.predecessors_eq n]
    by_cases hn : n = t
    · subst hn
      rw [if_pos rfl, eraseDups_concat]
      by_cases hmem : n ∈ h.graph.successors s <;> simp [hmem, hsources]
    · simp [hn]
  · have hwithin : EdgesWithin h.graph.size [(s, t, data)] := by
      intro e he
      rw [List.mem_singleton.1 he]
      exact ⟨hs, ht⟩
    have hedge := edge?_foldl_connect hwithin m n
    rw [List.foldl_cons, List.foldl_nil] at hedge
    rw [hedge, hh.edge?_eq, firstPayload?, firstPayload?, List.find?_append, Option.map_or]
  · rw [edgeCount_connect, size_connect, hh.sum_outDegree]
    exact (sum_range_of_grows hs (outDegree_connect hs data)).symm
  · rw [edgeCount_connect, size_connect, hh.sum_inDegree]
    exact (sum_range_of_grows ht (inDegree_connect ht data)).symm

/-- **One call** keeps the graph and its accepted edges in step. -/
theorem Faithful.call (hh : h.Faithful) (c : Call ν ε) : (h.call c).Faithful := by
  cases c with
  | addNode data => exact hh.addNode data
  | addEdge s t data =>
      cases hok : h.graph.addEdge s t data with
      | error e =>
          simp only [History.call, hok]
          exact hh
      | ok result =>
          obtain ⟨g, new⟩ := result
          obtain ⟨hs, ht, rfl⟩ := addEdge_eq_ok hok
          simp only [History.call, hok]
          exact hh.connect hs ht data

theorem faithful_ofCalls (calls : List (Call ν ε)) : (ofCalls calls).Faithful :=
  List.foldlRecOn calls History.call faithful_start fun _ hh c _ => hh.call c

end History

/-! ## What the graph tells -/

/-- The graph tells of the edges that were accepted, in the same way through
every question that can be asked about them. -/
structure Tells (g : Digraph ν ε) (accepted : List (NodeId × NodeId × ε)) : Prop where
  /-- Any two nodes can be joined, and nothing else. -/
  accepts : ∀ s t data, (∃ result, g.addEdge s t data = .ok result) ↔ s < g.size ∧ t < g.size
  /-- An accepted pair stands once at either end. -/
  once : ∀ s t, (∃ data, (s, t, data) ∈ accepted) →
    (g.successors s).count t = 1 ∧ (g.predecessors t).count s = 1 ∧ g.hasEdge s t = true
  /-- Another pair stands nowhere. -/
  never : ∀ s t, (¬ ∃ data, (s, t, data) ∈ accepted) →
    t ∉ g.successors s ∧ s ∉ g.predecessors t ∧ g.hasEdge s t = false
  payload : ∀ s t, g.edge? s t = firstPayload? s t accepted
  inside : ∀ s t, t ∈ g.successors s ∨ s ∈ g.predecessors t → s < g.size ∧ t < g.size
  successors_order : ∀ s, g.successors s = (targetsOf s accepted).eraseDups
  predecessors_order : ∀ t, g.predecessors t = (sourcesOf t accepted).eraseDups
  edgeCount_edges : g.edgeCount = g.edges.length
  edgeCount_out : g.edgeCount = ∑ n ∈ Finset.range g.size, g.outDegree n
  edgeCount_in : g.edgeCount = ∑ n ∈ Finset.range g.size, g.inDegree n

/-- **The graph tells of the calls that made it**: whatever nodes and edges
are added in whatever order, and whichever calls fail, both ends of the edges
and the count agree with the edges of the calls that have succeeded. -/
theorem history_told (calls : List (Call ν ε)) :
    (History.ofCalls calls).graph.Tells (History.ofCalls calls).accepted := by
  have hh := History.faithful_ofCalls calls
  have hlinked := hh.built.linked
  have hmem : ∀ s t, s ∈ (History.ofCalls calls).graph.predecessors t ↔
      t ∈ (History.ofCalls calls).graph.successors s := fun s t => hlinked.mem_pred
  refine ⟨fun _ _ _ => exists_addEdge_iff, fun s t haccepted => ?_, fun s t hnone => ?_,
    hh.edge?_eq, fun s t hedge => ?_, hh.successors_eq, hh.predecessors_eq, ?_,
    hh.sum_outDegree, hh.sum_inDegree⟩
  · have hold := hh.mem_successors.2 haccepted
    exact ⟨List.count_eq_one_of_mem (hh.built.nodup_successors s) hold,
      List.count_eq_one_of_mem (hh.built.nodup_predecessors t) ((hmem s t).2 hold),
      hasEdge_iff.2 hold⟩
  · have hnot := mt hh.mem_successors.1 hnone
    exact ⟨hnot, mt (hmem s t).1 hnot, Bool.eq_false_iff.2 (mt hasEdge_iff.1 hnot)⟩
  · have hold := hedge.elim id (hmem s t).1
    exact ⟨hlinked.source_lt hold, hlinked.target_lt hold⟩
  · rw [length_edges]
    exact hh.sum_outDegree

end Digraph

end MethodFlow
