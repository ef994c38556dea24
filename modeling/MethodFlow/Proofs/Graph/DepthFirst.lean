import Mathlib.Data.List.Basic
import Mathlib.Logic.Relation
import MethodFlow.Proofs.Graph.Order

/-!
# Depth-first search by recursion

What a depth-first search leaves, and in which order, is said best by a
recursion: take the nodes in turn, pass over those that are no nodes or have
been visited, and otherwise mark the node, deal with its successors in the
same way, and then emit it.  `View.tour` is this recursion.  It ends because
each mark leaves fewer nodes unmarked, and a tour never takes a mark back.

A search without recursion has to remember what is still to be done.  There
are two ways to do it, and neither looks like the recursion.  The frames of
`walk` keep for each node that is being visited the successors not yet tried.
The tasks of an `Agenda` put all successors on the stack as soon as their node
is entered, above the task to leave it; a successor may be visited from
elsewhere before its turn comes, so tasks go stale and are dropped when they
come up.

Both are compared with the recursion by the same argument, an induction along
the recursion itself with the rest of the stack held fixed: what stands on top
of the stack is worked off exactly as the tour of these nodes says, and then
the rest of the stack is as it was.  For the tasks the invariant is that a task
was put there when fewer nodes, never more, had been visited.

## Main results

* `View.walk_tour`, `View.foldl_visit_tour`: the frames follow the recursion.
* `View.runs_tour`, `View.runs_roots`: the tasks follow the recursion.
* `View.postorder_exact`: the postorder is what the recursion emits, and lists
  what the roots reach.
-/

namespace MethodFlow

/-- What a search has visited by now, not less than `before`, and what it has
emitted, in order. -/
structure Tour (before : List NodeId) where
  visited : List NodeId
  emitted : List NodeId
  kept : before ⊆ visited

/-- The tour of a node's successors, the node itself, and the tour of what
comes after it. -/
def Tour.leave {visited : List NodeId} {n : NodeId} (below : Tour (n :: visited))
    (later : Tour below.visited) : Tour visited where
  visited := later.visited
  emitted := below.emitted ++ n :: later.emitted
  kept _ hm := later.kept (below.kept (List.mem_cons_of_mem n hm))

namespace View

variable {v : View} {visited seen finished rest : List NodeId} {n : NodeId}

/-! ## The recursion -/

/-- The nodes that have not been visited. -/
def unvisited (v : View) (visited : List NodeId) : List NodeId :=
  v.nodes.filter (· ∉ visited)

theorem mem_unvisited : n ∈ v.unvisited visited ↔ n < v.size ∧ n ∉ visited := by
  simp [unvisited, nodes]

theorem erase_unvisited (v : View) (visited : List NodeId) (n : NodeId) :
    (v.unvisited visited).erase n = v.unvisited (n :: visited) := by
  have hnodup : (v.unvisited visited).Nodup := List.nodup_range.filter _
  rw [hnodup.erase_eq_filter, unvisited, unvisited, List.filter_filter]
  refine List.filter_congr fun m _ => ?_
  rw [Bool.eq_iff_iff]
  simp

theorem length_unvisited_cons_lt (hn : n < v.size ∧ n ∉ visited) :
    (v.unvisited (n :: visited)).length < (v.unvisited visited).length := by
  rw [← erase_unvisited]
  exact length_erase_lt (mem_unvisited.2 hn)

theorem length_unvisited_le (h : visited ⊆ seen) :
    (v.unvisited seen).length ≤ (v.unvisited visited).length := by
  refine (List.monotone_filter_right v.nodes fun n hn => ?_).length_le
  simp only [decide_eq_true_eq] at hn ⊢
  exact fun hmem => hn (h hmem)

/-- Visits the nodes of a list in turn, each followed by what it leads to: a
node that is in range and has not been visited is marked, its successors are
visited, and then it is emitted. -/
def tour (v : View) (visited : List NodeId) : List NodeId → Tour visited
  | [] => ⟨visited, [], List.Subset.refl _⟩
  | n :: rest =>
    if _fresh : n < v.size ∧ n ∉ visited then
      let below := v.tour (n :: visited) (v.succ n)
      below.leave (v.tour below.visited rest)
    else v.tour visited rest
termination_by rest => ((v.unvisited visited).length, rest.length)
decreasing_by
  · exact .left _ _ (length_unvisited_cons_lt _fresh)
  · have hkept : visited ⊆ below.visited := fun _ hm => below.kept (List.mem_cons_of_mem n hm)
    exact Prod.Lex.right' _ (length_unvisited_le hkept) (by simp)
  · exact .right _ (by simp)

theorem tour_fresh (hn : n < v.size ∧ n ∉ visited) :
    v.tour visited (n :: rest) =
      (v.tour (n :: visited) (v.succ n)).leave
        (v.tour (v.tour (n :: visited) (v.succ n)).visited rest) := by
  rw [tour, dif_pos hn]

theorem tour_skip (hn : ¬ (n < v.size ∧ n ∉ visited)) :
    v.tour visited (n :: rest) = v.tour visited rest := by
  rw [tour, dif_neg hn]

/-- A list is visited node by node. -/
theorem tour_cons (v : View) (visited : List NodeId) (n : NodeId) (rest : List NodeId) :
    (v.tour visited (n :: rest)).visited = (v.tour (v.tour visited [n]).visited rest).visited ∧
      (v.tour visited (n :: rest)).emitted =
        (v.tour visited [n]).emitted ++ (v.tour (v.tour visited [n]).visited rest).emitted := by
  by_cases hn : n < v.size ∧ n ∉ visited
  · have hvisited : (v.tour visited [n]).visited = (v.tour (n :: visited) (v.succ n)).visited := by
      simp [tour_fresh hn, Tour.leave, tour]
    rw [hvisited]
    simp [tour_fresh hn, Tour.leave, tour]
  · have hvisited : (v.tour visited [n]).visited = visited := by
      simp [tour_skip hn, tour]
    rw [hvisited]
    simp [tour_skip hn, tour]

/-- Induction along the recursion: over the successors of a node that is
visited, and over what comes after it. -/
@[elab_as_elim]
theorem tour_induction {P : List NodeId → List NodeId → Prop} (v : View)
    (nil : ∀ visited, P visited [])
    (fresh : ∀ visited n rest, n < v.size ∧ n ∉ visited → P (n :: visited) (v.succ n) →
      P (v.tour (n :: visited) (v.succ n)).visited rest → P visited (n :: rest))
    (skip : ∀ visited n rest, ¬ (n < v.size ∧ n ∉ visited) → P visited rest →
      P visited (n :: rest))
    (visited nodes : List NodeId) : P visited nodes := by
  fun_induction v.tour visited nodes with
  | case1 visited => exact nil visited
  | case2 visited n rest hfresh below ih_below ih_rest =>
      exact fresh visited n rest hfresh ih_below ih_rest
  | case3 visited n rest hstale ih => exact skip visited n rest hstale ih

/-! ## The frames -/

/-- A search goes on from where unwinding its stack leads. -/
private theorem walk_congr {next : NodeId → List NodeId} {pending finished finished' : List NodeId}
    {stack stack' : List Frame}
    (h : unwind pending stack finished = unwind pending stack' finished') :
    walk next pending stack finished = walk next pending stack' finished' := by
  rw [walk, walk, h]

private theorem walk_enter {next : NodeId → List NodeId} {pending finished finished' : List NodeId}
    {stack stack' : List Frame} {s : NodeId}
    (h : unwind pending stack finished = (some (s, stack'), finished')) :
    walk next pending stack finished =
      walk next (pending.erase s) (⟨s, next s⟩ :: stack') finished' := by
  rw [walk, h]

private theorem walk_nil (next : NodeId → List NodeId) (pending finished : List NodeId) :
    walk next pending [] finished = ⟨pending, finished⟩ := by
  rw [walk]
  rfl

/-- A node is left when the tour of its successors not yet tried is over. -/
theorem walk_tour (v : View) (visited rest : List NodeId) (m : NodeId) (stack : List Frame)
    (finished : List NodeId) :
    walk v.succ (v.unvisited visited) (⟨m, rest⟩ :: stack) finished =
      walk v.succ (v.unvisited (v.tour visited rest).visited) stack
        (m :: ((v.tour visited rest).emitted.reverse ++ finished)) := by
  induction visited, rest using v.tour_induction generalizing m stack finished with
  | nil visited =>
      rw [tour]
      exact walk_congr rfl
  | fresh visited n rest hfresh ih_below ih_rest =>
      have hmem : n ∈ v.unvisited visited := mem_unvisited.2 hfresh
      have hskip : skipTo (v.unvisited visited) (n :: rest) = n :: rest :=
        List.dropWhile_cons_of_neg (by simpa using hmem)
      have henter : walk v.succ (v.unvisited visited) (⟨m, n :: rest⟩ :: stack) finished =
          walk v.succ (v.unvisited (n :: visited)) (⟨n, v.succ n⟩ :: ⟨m, rest⟩ :: stack)
            finished := by
        rw [← erase_unvisited]
        exact walk_enter (by simp only [unwind, hskip])
      rw [henter, ih_below, ih_rest, tour_fresh hfresh]
      simp [Tour.leave]
  | skip visited n rest hstale ih =>
      have hmem : n ∉ v.unvisited visited := fun h => hstale (mem_unvisited.1 h)
      have hskip : skipTo (v.unvisited visited) (n :: rest) = skipTo (v.unvisited visited) rest :=
        List.dropWhile_cons_of_pos (by simpa using hmem)
      rw [tour_skip hstale, ← ih]
      exact walk_congr (by simp only [unwind, hskip])

/-- The roots are visited as the recursion visits a list. -/
theorem foldl_visit_tour (roots : List NodeId) :
    roots.foldl (Traversal.visit v.succ) ⟨v.unvisited visited, finished⟩ =
      ⟨v.unvisited (v.tour visited roots).visited,
        (v.tour visited roots).emitted.reverse ++ finished⟩ := by
  induction roots generalizing visited finished with
  | nil => simp [tour]
  | cons r roots ih =>
      rw [List.foldl_cons, Traversal.visit]
      by_cases hfresh : r < v.size ∧ r ∉ visited
      · rw [if_pos (mem_unvisited.2 hfresh), erase_unvisited, walk_tour, walk_nil, ih,
          tour_fresh hfresh]
        simp [Tour.leave]
      · rw [if_neg (fun h => hfresh (mem_unvisited.1 h)), ih, tour_skip hfresh]

/-- The nodes that the recursion emits, visiting the roots in turn. -/
def recursivePostorder (v : View) (roots : List NodeId) : List NodeId := (v.tour [] roots).emitted

theorem postorder_eq_recursivePostorder (v : View) (roots : List NodeId) :
    v.postorder roots = v.recursivePostorder roots := by
  have hall : v.nodes = v.unvisited [] := by simp [unvisited]
  rw [postorder, reversePostorder, hall, foldl_visit_tour]
  simp [recursivePostorder]

/-! ## The tasks -/

end View

/-- What a search has put off: to enter a node or to leave it. -/
inductive Task where
  | enter (n : NodeId)
  | leave (n : NodeId)

/-- A search without recursion under way: the roots not yet begun with, the
tasks, the next one first, the nodes visited and, in order, the nodes left. -/
structure Agenda where
  roots : List NodeId
  tasks : List Task
  visited : List NodeId
  emitted : List NodeId

namespace View

variable {v : View} {visited seen roots emitted rest : List NodeId} {tasks : List Task} {n : NodeId}
  {a b c : Agenda}

/-- The tasks to enter the nodes that are in range and not visited. -/
def entries (v : View) (visited nodes : List NodeId) : List Task :=
  (nodes.filter fun n => n < v.size ∧ n ∉ visited).map .enter

/-- Does the next task.  Entering a node that has been visited meanwhile does
nothing; otherwise its successors are to be entered before it is left.  When no
task is left, the next root is begun with, and when there is none, the search is
over. -/
def advance? (v : View) : Agenda → Option Agenda
  | ⟨roots, .leave n :: tasks, visited, emitted⟩ => some ⟨roots, tasks, visited, emitted ++ [n]⟩
  | ⟨roots, .enter n :: tasks, visited, emitted⟩ =>
    if n ∈ visited then some ⟨roots, tasks, visited, emitted⟩
    else some ⟨roots, v.entries (n :: visited) (v.succ n) ++ .leave n :: tasks, n :: visited,
      emitted⟩
  | ⟨r :: roots, [], visited, emitted⟩ => some ⟨roots, v.entries visited [r], visited, emitted⟩
  | ⟨[], [], _, _⟩ => none

/-- The search leads from one agenda to the other. -/
def Runs (v : View) : Agenda → Agenda → Prop :=
  Relation.ReflTransGen fun a b => v.advance? a = some b

theorem Runs.refl (v : View) (a : Agenda) : v.Runs a a := Relation.ReflTransGen.refl

theorem Runs.head (hstep : v.advance? a = some b) (hrun : v.Runs b c) : v.Runs a c :=
  Relation.ReflTransGen.head hstep hrun

theorem Runs.trans (hab : v.Runs a b) (hbc : v.Runs b c) : v.Runs a c :=
  Relation.ReflTransGen.trans hab hbc

theorem entries_fresh (hn : n < v.size ∧ n ∉ seen) :
    v.entries seen (n :: rest) = .enter n :: v.entries seen rest := by
  rw [entries, List.filter_cons_of_pos (by simpa using hn)]
  rfl

theorem entries_skip (hn : ¬ (n < v.size ∧ n ∉ seen)) :
    v.entries seen (n :: rest) = v.entries seen rest := by
  rw [entries, List.filter_cons_of_neg (by simpa using hn)]
  rfl

/-- Tasks put on the stack when only `seen` had been visited are worked off as
the recursion says, those gone stale being dropped. -/
theorem runs_tour (hseen : seen ⊆ visited) :
    v.Runs ⟨roots, v.entries seen rest ++ tasks, visited, emitted⟩
      ⟨roots, tasks, (v.tour visited rest).visited,
        emitted ++ (v.tour visited rest).emitted⟩ := by
  induction visited, rest using v.tour_induction generalizing seen tasks emitted with
  | nil visited =>
      rw [tour, List.append_nil]
      exact .refl v _
  | fresh visited n rest hfresh ih_below ih_rest =>
      -- The tasks behind `n` wait until its successors are done, and go stale meanwhile.
      have hlater : seen ⊆ (v.tour (n :: visited) (v.succ n)).visited := fun _ hm =>
        (v.tour _ _).kept (List.mem_cons_of_mem n (hseen hm))
      rw [entries_fresh ⟨hfresh.1, fun hm => hfresh.2 (hseen hm)⟩]
      refine .head (by rw [List.cons_append, advance?, if_neg hfresh.2]) ?_
      refine (ih_below (List.Subset.refl _)).trans (.head rfl ?_)
      have hrest : v.Runs ⟨roots, v.entries seen rest ++ tasks, _,
          emitted ++ (v.tour (n :: visited) (v.succ n)).emitted ++ [n]⟩ _ := ih_rest hlater
      rw [tour_fresh hfresh]
      simpa [Tour.leave] using hrest
  | skip visited n rest hstale ih =>
      rw [tour_skip hstale]
      by_cases hn : n < v.size ∧ n ∉ seen
      · -- The task was put there, but `n` has been visited since.
        have hmem : n ∈ visited := by
          by_contra hnot
          exact hstale ⟨hn.1, hnot⟩
        rw [entries_fresh hn]
        refine .head (by rw [List.cons_append, advance?, if_pos hmem]) ?_
        exact ih hseen
      · rw [entries_skip hn]
        exact ih hseen

/-- The search from the roots runs until nothing is left to do. -/
theorem runs_roots (v : View) (roots visited emitted : List NodeId) :
    v.Runs ⟨roots, [], visited, emitted⟩
      ⟨[], [], (v.tour visited roots).visited, emitted ++ (v.tour visited roots).emitted⟩ := by
  induction roots generalizing visited emitted with
  | nil =>
      rw [tour, List.append_nil]
      exact .refl v _
  | cons r roots ih =>
      refine .head rfl ?_
      have hroot : v.Runs ⟨roots, v.entries visited [r] ++ [], visited, emitted⟩ _ :=
        runs_tour (List.Subset.refl visited)
      rw [List.append_nil] at hroot
      refine hroot.trans ?_
      rw [(v.tour_cons visited r roots).1, (v.tour_cons visited r roots).2, ← List.append_assoc]
      exact ih _ _

theorem mem_postorder (hv : v.Linked) :
    n ∈ v.postorder roots ↔ ∃ r ∈ roots, r < v.size ∧ v.Reaches r n := by
  rw [postorder, List.mem_reverse]
  exact mem_reversePostorder hv

/-- **The postorder is that of the recursion.**  In a graph made by adding nodes
and edges, and in its reverse, the postorder from any roots, whether or not they
repeat or are nodes at all, is what the recursion emits.  The search by tasks
comes to an end and emits the same.  The postorder lists each node that a root
in range reaches once, and no other, and the reverse postorder is its
reversal. -/
theorem postorder_exact {ν ε : Type} {g : Digraph ν ε} {v : View} (hg : g.Built)
    (hv : v = g.view ∨ v = g.view.reverse) (roots : List NodeId) :
    v.postorder roots = v.recursivePostorder roots ∧
      (∃ last, v.Runs ⟨roots, [], [], []⟩ last ∧ v.advance? last = none ∧
        last.emitted = v.postorder roots) ∧
      (v.postorder roots).Nodup ∧
      (∀ n, n ∈ v.postorder roots ↔ ∃ r ∈ roots, r < v.size ∧ v.Reaches r n) ∧
      v.reversePostorder roots = (v.postorder roots).reverse := by
  have hrecursion := v.postorder_eq_recursivePostorder roots
  refine ⟨hrecursion, ⟨_, v.runs_roots roots [] [], rfl, ?_⟩, ?_, fun n => ?_, ?_⟩
  · rw [hrecursion]
    rfl
  · exact (List.reverse_perm _).nodup_iff.2 (v.nodup_reversePostorder roots)
  · exact mem_postorder (hg.linked_of_view hv)
  · exact (List.reverse_reverse _).symm

/-- Two nodes that lead to each other, both of which the first node leads to. -/
def twoWays : Digraph Unit Unit :=
  [(0, 1, ()), (0, 2, ()), (1, 2, ()), (2, 1, ()), (3, 0, ())].foldl
    (fun g e => g.connect e.1 e.2.1 e.2.2) ([(), (), (), ()].foldl Digraph.addNode .empty)

/-- Node 2 is visited from node 1 while the task to enter it from node 0 waits;
of the roots, one is no node and one is there twice.  In the reverse, the search
begins inside the cycle. -/
theorem postorder_exact_twoWays :
    twoWays.Built ∧ twoWays.view.postorder [0, 9, 0, 3] = [2, 1, 0, 3] ∧
      twoWays.view.recursivePostorder [0, 9, 0, 3] = [2, 1, 0, 3] ∧
      (∃ last, twoWays.view.Runs ⟨[0, 9, 0, 3], [], [], []⟩ last ∧
        twoWays.view.advance? last = none ∧ last.emitted = [2, 1, 0, 3]) ∧
      twoWays.view.reverse.recursivePostorder [1, 0] = [3, 0, 2, 1] := by
  have hbuilt : twoWays.Built :=
    Digraph.built_foldl_connect (Digraph.built_foldl_addNode .empty _)
      (by unfold Digraph.EdgesWithin; decide)
  have horder : twoWays.view.postorder [0, 9, 0, 3] = [2, 1, 0, 3] := by decide +kernel
  have hreverse : twoWays.view.reverse.postorder [1, 0] = [3, 0, 2, 1] := by decide +kernel
  obtain ⟨hrecursion, hrun, -⟩ := postorder_exact hbuilt (.inl rfl) [0, 9, 0, 3]
  rw [horder] at hrecursion hrun
  have hback := (postorder_exact hbuilt (.inr rfl) [1, 0]).1
  exact ⟨hbuilt, horder, hrecursion.symm, hrun, hback.symm.trans hreverse⟩

end View

end MethodFlow
