import MethodFlow.Graph.View

/-!
# Graphs made by adding nodes and edges

Both ends of an edge remember it, so a graph could contradict itself.  It
does not: `Digraph.Linked` says that the two directions tell of the same
edges and that every edge joins two nodes of the graph, and both operations
keep it.  A `View` inherits the property, and turning the view around keeps
it as well, so whatever is proved of a linked view holds in both directions.

## Main results

* `Digraph.Built.linked`: a graph made by adding nodes and edges is linked.
* `Digraph.edge?_foldl_connect`: of the edges added for a pair of nodes the
  first one stays.
-/

namespace MethodFlow

/-- Both directions of the view tell of the same edges, all between nodes. -/
structure View.Linked (v : View) : Prop where
  mem_pred : ∀ {s t : Nat}, s ∈ v.pred t ↔ t ∈ v.succ s
  source_lt : ∀ {s t : Nat}, t ∈ v.succ s → s < v.size
  target_lt : ∀ {s t : Nat}, t ∈ v.succ s → t < v.size

theorem View.Linked.reverse {v : View} (h : v.Linked) : v.reverse.Linked where
  mem_pred := h.mem_pred.symm
  source_lt hedge := h.target_lt (h.mem_pred.1 hedge)
  target_lt hedge := h.source_lt (h.mem_pred.1 hedge)

namespace Digraph

variable {ν ε : Type} {g : Digraph ν ε} {s t : Nat}

/-- The graphs that adding nodes and edges, starting without any, makes. -/
inductive Built : Digraph ν ε → Prop where
  | empty : Built empty
  | addNode {g : Digraph ν ε} (hg : Built g) (data : ν) : Built (g.addNode data)
  | addEdge {g g' : Digraph ν ε} {s t : Nat} {data : ε} {new : Bool}
      (hg : Built g) (h : g.addEdge s t data = .ok (g', new)) : Built g'

/-! ## What each operation does to the edges -/

@[simp] theorem size_addNode (g : Digraph ν ε) (data : ν) :
    (g.addNode data).size = g.size + 1 :=
  Array.size_push _

@[simp] theorem size_link (g : Digraph ν ε) (s t : Nat) (data : ε) :
    (g.link s t data).size = g.size := by
  simp [link, size]

@[simp] theorem size_connect (g : Digraph ν ε) (s t : Nat) (data : ε) :
    (g.connect s t data).size = g.size := by
  unfold connect
  split
  · rfl
  · exact size_link g s t data

private theorem getElem?_addNode (g : Digraph ν ε) (data : ν) (n : Nat) :
    (g.addNode data).nodes[n]? =
      if n = g.size then some ⟨data, [], []⟩ else g.nodes[n]? := by
  unfold addNode size
  rw [Array.getElem?_push]

@[simp] theorem outgoing_addNode (g : Digraph ν ε) (data : ν) (n : Nat) :
    (g.addNode data).outgoing n = g.outgoing n := by
  unfold outgoing
  rw [getElem?_addNode]
  split
  · next h =>
    have hnone : g.nodes[n]? = none := Array.getElem?_eq_none (Nat.le_of_eq h.symm)
    rw [hnone]
    rfl
  · rfl

@[simp] theorem predecessors_addNode (g : Digraph ν ε) (data : ν) (n : Nat) :
    (g.addNode data).predecessors n = g.predecessors n := by
  unfold predecessors
  rw [getElem?_addNode]
  split
  · next h =>
    have hnone : g.nodes[n]? = none := Array.getElem?_eq_none (Nat.le_of_eq h.symm)
    rw [hnone]
    rfl
  · rfl

theorem data?_addNode (g : Digraph ν ε) (data : ν) (n : Nat) :
    (g.addNode data).data? n = if n = g.size then some data else g.data? n := by
  unfold data?
  rw [getElem?_addNode]
  split <;> rfl

theorem outgoing_link (hs : s < g.size) (data : ε) (n : Nat) :
    (g.link s t data).outgoing n =
      if n = s then g.outgoing n ++ [(t, data)] else g.outgoing n := by
  obtain ⟨node, hget⟩ : ∃ node, g.nodes[s]? = some node :=
    ⟨_, Array.getElem?_eq_getElem hs⟩
  unfold outgoing link
  simp only [Array.getElem?_modify]
  by_cases hn : n = s
  · subst hn
    by_cases ht : t = n <;> simp [ht, hget]
  · have hsn : ¬ s = n := fun h => hn h.symm
    by_cases ht : t = n
    · cases hnode : g.nodes[n]? <;> simp [ht, hn, hsn]
    · simp [ht, hn, hsn]

theorem predecessors_link (ht : t < g.size) (data : ε) (n : Nat) :
    (g.link s t data).predecessors n =
      if n = t then g.predecessors n ++ [s] else g.predecessors n := by
  obtain ⟨node, hget⟩ : ∃ node, g.nodes[t]? = some node :=
    ⟨_, Array.getElem?_eq_getElem ht⟩
  unfold predecessors link
  simp only [Array.getElem?_modify]
  by_cases hn : n = t
  · subst hn
    by_cases hs : s = n <;> simp [hs, hget]
  · have htn : ¬ t = n := fun h => hn h.symm
    by_cases hs : s = n
    · cases hnode : g.nodes[n]? <;> simp [hs, hn, htn]
    · simp [hs, hn, htn]

@[simp] theorem data?_link (g : Digraph ν ε) (s t : Nat) (data : ε) (n : Nat) :
    (g.link s t data).data? n = g.data? n := by
  unfold data? link
  simp only [Array.getElem?_modify]
  cases hnode : g.nodes[n]? <;> by_cases hs : s = n <;> by_cases ht : t = n <;>
    simp [hs, ht]

@[simp] theorem data?_connect (g : Digraph ν ε) (s t : Nat) (data : ε) (n : Nat) :
    (g.connect s t data).data? n = g.data? n := by
  unfold connect
  split
  · rfl
  · exact data?_link g s t data n

theorem hasEdge_iff : g.hasEdge s t = true ↔ t ∈ g.successors s := by
  simp [hasEdge, successors]

theorem edge?_isSome : (g.edge? s t).isSome = g.hasEdge s t := by
  rw [edge?, Option.isSome_map, hasEdge, List.isSome_find?]

theorem mem_successors_iff : t ∈ g.successors s ↔ ∃ data, g.edge? s t = some data := by
  rw [← hasEdge_iff, ← edge?_isSome, Option.isSome_iff_exists]

/-! ## Both directions agree -/

private theorem linked_addNode (h : g.view.Linked) (data : ν) :
    (g.addNode data).view.Linked where
  mem_pred := by
    intro s t
    show s ∈ (g.addNode data).predecessors t ↔ t ∈ (g.addNode data).successors s
    unfold successors
    rw [predecessors_addNode, outgoing_addNode]
    exact h.mem_pred
  source_lt := by
    intro s t hedge
    change t ∈ ((g.addNode data).outgoing s).map Prod.fst at hedge
    rw [outgoing_addNode] at hedge
    have hlt : s < g.size := h.source_lt hedge
    show s < (g.addNode data).size
    rw [size_addNode]
    omega
  target_lt := by
    intro s t hedge
    change t ∈ ((g.addNode data).outgoing s).map Prod.fst at hedge
    rw [outgoing_addNode] at hedge
    have hlt : t < g.size := h.target_lt hedge
    show t < (g.addNode data).size
    rw [size_addNode]
    omega

theorem mem_successors_link (hs : s < g.size) (data : ε) {m n : Nat} :
    n ∈ (g.link s t data).successors m ↔
      n ∈ g.successors m ∨ (m = s ∧ n = t) := by
  unfold successors
  rw [outgoing_link hs]
  by_cases hm : m = s <;> simp [hm]

private theorem linked_link (h : g.view.Linked) (hs : s < g.size) (ht : t < g.size)
    (data : ε) : (g.link s t data).view.Linked where
  mem_pred := by
    intro m n
    show m ∈ (g.link s t data).predecessors n ↔ n ∈ (g.link s t data).successors m
    have hold : m ∈ g.predecessors n ↔ n ∈ g.successors m := h.mem_pred
    rw [mem_successors_link hs, predecessors_link ht, ← hold]
    by_cases hn : n = t <;> simp [hn]
  source_lt := by
    intro m n hedge
    show m < (g.link s t data).size
    rw [size_link]
    rcases (mem_successors_link hs data).1 hedge with hold | ⟨rfl, rfl⟩
    · exact h.source_lt hold
    · exact hs
  target_lt := by
    intro m n hedge
    show n < (g.link s t data).size
    rw [size_link]
    rcases (mem_successors_link hs data).1 hedge with hold | ⟨rfl, rfl⟩
    · exact h.target_lt hold
    · exact ht

private theorem linked_connect (h : g.view.Linked) (hs : s < g.size) (ht : t < g.size)
    (data : ε) : (g.connect s t data).view.Linked := by
  unfold connect
  split
  · exact h
  · exact linked_link h hs ht data

/-- What a successful `addEdge` has checked, and the graph it gives. -/
theorem addEdge_eq_ok {g' : Digraph ν ε} {data : ε} {new : Bool}
    (h : g.addEdge s t data = .ok (g', new)) :
    s < g.size ∧ t < g.size ∧ g' = g.connect s t data := by
  unfold addEdge at h
  split at h
  · cases h
  · split at h
    · cases h
    · next hs ht =>
      simp only [Except.ok.injEq, Prod.mk.injEq] at h
      exact ⟨Nat.lt_of_not_le hs, Nat.lt_of_not_le ht, h.1.symm⟩

/-- **Both directions agree**: a graph made by adding nodes and edges is
linked. -/
theorem Built.linked (h : g.Built) : g.view.Linked := by
  induction h with
  | empty =>
      have hnone : ∀ s, (Digraph.empty : Digraph ν ε).successors s = [] := fun s => rfl
      refine ⟨?_, ?_, ?_⟩
      · intro s t
        show s ∈ [] ↔ t ∈ []
        simp
      · intro s t hedge
        exact absurd hedge (by simp [view, hnone])
      · intro s t hedge
        exact absurd hedge (by simp [view, hnone])
  | addNode _ data ih => exact linked_addNode ih data
  | addEdge _ hok ih =>
      obtain ⟨hs, ht, rfl⟩ := addEdge_eq_ok hok
      exact linked_connect ih hs ht _

/-- The view of the graph is linked in both directions. -/
theorem Built.linked_of_view (h : g.Built) {v : View} (hv : v = g.view ∨ v = g.view.reverse) :
    v.Linked := by
  rcases hv with rfl | rfl
  · exact h.linked
  · exact h.linked.reverse

/-- No predecessor is listed twice: a pair of nodes gets no second edge. -/
theorem Built.nodup_predecessors (h : g.Built) (n : NodeId) : (g.predecessors n).Nodup := by
  induction h with
  | empty => exact List.nodup_nil
  | addNode _ data ih =>
      rw [predecessors_addNode]
      exact ih
  | @addEdge g _ s t data _ hg hok ih =>
      obtain ⟨-, ht, rfl⟩ := addEdge_eq_ok hok
      unfold connect
      split
      · exact ih
      · next hnew =>
        rw [predecessors_link ht]
        split
        · next hn =>
          have hnot : s ∉ g.predecessors n := by
            rw [hn]
            exact fun hs => hnew (hasEdge_iff.2 (hg.linked.mem_pred.1 hs))
          exact List.nodup_append.2 ⟨ih, List.pairwise_singleton _ s, fun p hp q hq hpq =>
            hnot (List.mem_singleton.1 hq ▸ hpq ▸ hp)⟩
        · exact ih

/-- No successor is listed twice either. -/
theorem Built.nodup_successors (h : g.Built) (n : NodeId) : (g.successors n).Nodup := by
  induction h with
  | empty => exact List.nodup_nil
  | addNode _ data ih =>
      rw [successors, outgoing_addNode]
      exact ih
  | @addEdge g _ s t data _ _ hok ih =>
      obtain ⟨hs, -, rfl⟩ := addEdge_eq_ok hok
      unfold connect
      split
      · exact ih
      · next hnew =>
        rw [successors, outgoing_link hs]
        split
        · next hn =>
          have hnot : t ∉ g.successors n := by
            rw [hn]
            exact fun ht => hnew (hasEdge_iff.2 ht)
          rw [List.map_append]
          refine List.nodup_append.2 ⟨ih, List.pairwise_singleton _ t, ?_⟩
          rintro p hp q hq rfl
          have hp_eq : p = t := List.mem_singleton.1 hq
          exact hnot (hp_eq ▸ hp)
        · exact ih

/-! ## Graphs made from lists of nodes and edges -/

theorem built_foldl_addNode (hg : g.Built) (nodes : List ν) :
    (nodes.foldl addNode g).Built := by
  induction nodes generalizing g with
  | nil => exact hg
  | cons data rest ih => exact ih (hg.addNode data)

theorem size_foldl_addNode (g : Digraph ν ε) (nodes : List ν) :
    (nodes.foldl addNode g).size = g.size + nodes.length := by
  induction nodes generalizing g with
  | nil => rfl
  | cons data rest ih =>
      rw [List.foldl_cons, ih, size_addNode, List.length_cons]
      omega

theorem outgoing_foldl_addNode (g : Digraph ν ε) (nodes : List ν) (n : Nat) :
    (nodes.foldl addNode g).outgoing n = g.outgoing n := by
  induction nodes generalizing g with
  | nil => rfl
  | cons data rest ih => rw [List.foldl_cons, ih, outgoing_addNode]

theorem data?_foldl_addNode (g : Digraph ν ε) (nodes : List ν) (n : Nat) :
    (nodes.foldl addNode g).data? n =
      if n < g.size then g.data? n else nodes[n - g.size]? := by
  induction nodes generalizing g with
  | nil =>
      by_cases hn : n < g.size
      · simp [hn]
      · have hnone : g.nodes[n]? = none := Array.getElem?_eq_none (Nat.le_of_not_lt hn)
        rw [List.foldl_nil, if_neg hn, data?, hnone]
        rfl
  | cons data rest ih =>
      rw [List.foldl_cons, ih, data?_addNode, size_addNode]
      rcases Nat.lt_trichotomy n g.size with hlt | heq | hgt
      · rw [if_pos (by omega), if_neg (by omega), if_pos hlt]
      · rw [if_pos (by omega), if_pos heq, if_neg (by omega), heq, Nat.sub_self]
        rfl
      · rw [if_neg (by omega), if_neg (by omega),
          show n - g.size = n - (g.size + 1) + 1 by omega, List.getElem?_cons_succ]

/-- The edges of the list join nodes of a graph with `size` nodes. -/
def EdgesWithin (size : Nat) (edges : List (NodeId × NodeId × ε)) : Prop :=
  ∀ e ∈ edges, e.1 < size ∧ e.2.1 < size

theorem built_connect (hg : g.Built) (hs : s < g.size) (ht : t < g.size) (data : ε) :
    (g.connect s t data).Built := by
  have hok : g.addEdge s t data = .ok (g.connect s t data, !g.hasEdge s t) := by
    unfold addEdge
    rw [if_neg (Nat.not_le_of_lt hs), if_neg (Nat.not_le_of_lt ht)]
  exact hg.addEdge hok

theorem built_foldl_connect {edges : List (NodeId × NodeId × ε)} (hg : g.Built)
    (h : EdgesWithin g.size edges) :
    (edges.foldl (fun g e => g.connect e.1 e.2.1 e.2.2) g).Built := by
  induction edges generalizing g with
  | nil => exact hg
  | cons e rest ih =>
      obtain ⟨hs, ht⟩ := h e List.mem_cons_self
      refine ih (built_connect hg hs ht _) fun e' he' => ?_
      rw [size_connect]
      exact h e' (List.mem_cons_of_mem _ he')

theorem size_foldl_connect (g : Digraph ν ε) (edges : List (NodeId × NodeId × ε)) :
    (edges.foldl (fun g e => g.connect e.1 e.2.1 e.2.2) g).size = g.size := by
  induction edges generalizing g with
  | nil => rfl
  | cons e rest ih => rw [List.foldl_cons, ih, size_connect]

theorem data?_foldl_connect (g : Digraph ν ε) (edges : List (NodeId × NodeId × ε)) (n : Nat) :
    (edges.foldl (fun g e => g.connect e.1 e.2.1 e.2.2) g).data? n = g.data? n := by
  induction edges generalizing g with
  | nil => rfl
  | cons e rest ih => rw [List.foldl_cons, ih, data?_connect]

private theorem edge?_connect (hs : s < g.size) (data : ε) (m n : Nat) :
    (g.connect s t data).edge? m n =
      (g.edge? m n).or (if s = m ∧ t = n then some data else none) := by
  unfold connect
  split
  · next hold =>
    split
    · next heq =>
      obtain ⟨rfl, rfl⟩ := heq
      rw [← edge?_isSome] at hold
      obtain ⟨old, hold⟩ := Option.isSome_iff_exists.1 hold
      rw [hold]
      rfl
    · rw [Option.or_none]
  · unfold edge?
    rw [outgoing_link hs]
    by_cases hm : m = s
    · subst hm
      rw [if_pos rfl, List.find?_append]
      by_cases hn : t = n <;>
        cases hfind : (g.outgoing m).find? fun e => e.1 == n <;> simp [hn]
    · have hsm : ¬ (s = m ∧ t = n) := fun h => hm h.1.symm
      rw [if_neg hm, if_neg hsm, Option.or_none]

/-- **The first edge stays**: adding a list of edges gives every pair of
nodes that has none yet the first edge listed for it. -/
theorem edge?_foldl_connect {edges : List (NodeId × NodeId × ε)}
    (h : EdgesWithin g.size edges) (m n : Nat) :
    (edges.foldl (fun g e => g.connect e.1 e.2.1 e.2.2) g).edge? m n =
      (g.edge? m n).or
        ((edges.find? fun e => e.1 == m && e.2.1 == n).map fun e => e.2.2) := by
  induction edges generalizing g with
  | nil => simp
  | cons e rest ih =>
      obtain ⟨hs, -⟩ := h e List.mem_cons_self
      have hrest : EdgesWithin (g.connect e.1 e.2.1 e.2.2).size rest := by
        intro e' he'
        rw [size_connect]
        exact h e' (List.mem_cons_of_mem _ he')
      rw [List.foldl_cons, ih hrest, edge?_connect hs, Option.or_assoc, List.find?_cons]
      by_cases hmatch : e.1 = m ∧ e.2.1 = n
      · simp [hmatch]
      · have hfalse : (e.1 == m && e.2.1 == n) = false := by
          rw [Bool.eq_false_iff]
          intro htrue
          simp only [Bool.and_eq_true, beq_iff_eq] at htrue
          exact hmatch htrue
        simp [hmatch, hfalse]

end Digraph

end MethodFlow
