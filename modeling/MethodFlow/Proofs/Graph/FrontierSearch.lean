import MethodFlow.Proofs.Graph.DominatorTree
import MethodFlow.Proofs.Graph.Worklists

/-!
# The search for an iterated frontier

A search for an iterated frontier keeps two sets.  One holds the result, which
the given nodes belong to only if some frontier contains them.  The other
holds the nodes that have been on the worklist, which all given nodes have.  A
member of a frontier is entered into the first set, and put on the list if it
is new there and new in the second set as well.

That the second test is made only after the first has succeeded loses nothing:
what is in the result has been on the worklist.  So the search is one that
keeps what it has found, and when its list is empty, its result is the iterated
frontier.

## Main results

* `FrontierSearch.note_eq`: the two tests, taken apart.
* `Dominators.runs_iteratedFrontier`: the search ends with the iterated
  frontier.
-/

namespace MethodFlow

/-- A search for an iterated frontier under way. -/
structure FrontierSearch where
  /-- What the frontiers of the nodes that have been followed contain. -/
  result : BitSet
  /-- The nodes that have been put on the worklist. -/
  queued : BitSet
  /-- The nodes still to be followed, the next one first. -/
  work : List NodeId

namespace FrontierSearch

variable {s : FrontierSearch} {d : Dominators} {found rest work nodes roots : List NodeId}
  {f m n : Nat}

/-- Puts a node on the worklist, unless it has been there. -/
def enqueue (s : FrontierSearch) (n : NodeId) : FrontierSearch :=
  if s.queued.contains n then s else { s with queued := s.queued.add n, work := n :: s.work }

/-- Enters a member of a frontier into the result.  If it is new there, it is
put on the worklist. -/
def note (s : FrontierSearch) (f : NodeId) : FrontierSearch :=
  if s.result.contains f then s else { s with result := s.result.add f }.enqueue f

/-- The search from the given nodes; numbers that are no nodes are skipped. -/
def begin (d : Dominators) (defs : List NodeId) : FrontierSearch :=
  (defs.filter (· < d.sets.size)).foldl enqueue ⟨.empty d.sets.size, .empty d.sets.size, []⟩

/-- Follows the next node. -/
def advance? (d : Dominators) (s : FrontierSearch) : Option FrontierSearch :=
  match s.work with
  | [] => none
  | n :: rest => some ((d.frontier n).foldl note { s with work := rest })

/-- The search leads from one state to the other. -/
def Runs (d : Dominators) : FrontierSearch → FrontierSearch → Prop :=
  Relation.ReflTransGen fun s s' => advance? d s = some s'

/-! ## One frontier -/

theorem add_of_contains {t : BitSet} (h : t.contains n = true) : t.add n = t := by
  refine BitSet.ext_contains (BitSet.capacity_add t n) fun i => Bool.eq_iff_iff.2 ?_
  rw [BitSet.contains_add, Bool.or_eq_true, Bool.and_eq_true, decide_eq_true_eq]
  refine or_iff_left_of_imp ?_
  rintro ⟨rfl, -⟩
  exact h

/-- What is in the result has been on the worklist, so the first test can be
left out. -/
theorem note_eq (h : s.result.contains f = true → s.queued.contains f = true) :
    s.note f = { s with result := s.result.add f }.enqueue f := by
  unfold note
  split
  · next hold => rw [add_of_contains hold, enqueue, if_pos (h hold)]
  · rfl

theorem enqueue_result (s : FrontierSearch) (result : BitSet) (n : NodeId) :
    { s with result }.enqueue n = { s.enqueue n with result } := by
  unfold enqueue
  split <;> rfl

theorem contains_enqueue (hn : n < s.queued.capacity) :
    (s.enqueue n).queued.contains m = true ↔ s.queued.contains m = true ∨ m = n := by
  unfold enqueue
  split
  · next hold =>
    refine (or_iff_left_of_imp ?_).symm
    rintro rfl
    exact hold
  · simp [hn]

@[simp] theorem capacity_enqueue (s : FrontierSearch) (n : NodeId) :
    (s.enqueue n).queued.capacity = s.queued.capacity := by
  unfold enqueue
  split <;> simp

@[simp] theorem result_enqueue (s : FrontierSearch) (n : NodeId) :
    (s.enqueue n).result = s.result := by
  unfold enqueue
  split <;> rfl

/-- What changes when nodes are put on the worklist: those are new there that
have not been on it, each once. -/
structure Enqueued (s : FrontierSearch) (nodes : List NodeId) (s' : FrontierSearch) : Prop where
  capacity : s'.queued.capacity = s.queued.capacity
  result : s'.result = s.result
  queued : ∀ m, s'.queued.contains m = true ↔ s.queued.contains m = true ∨ m ∈ nodes
  work : ∃ more, s'.work = more ++ s.work ∧ more.Nodup ∧
    ∀ m, m ∈ more ↔ m ∈ nodes ∧ ¬ s.queued.contains m = true

theorem enqueued_foldl (hlt : ∀ n ∈ nodes, n < s.queued.capacity) :
    Enqueued s nodes (nodes.foldl enqueue s) := by
  induction nodes generalizing s with
  | nil => exact ⟨rfl, rfl, by simp, [], by simp⟩
  | cons n nodes ih =>
      have hn := hlt n List.mem_cons_self
      have hlt' : ∀ m ∈ nodes, m < (s.enqueue n).queued.capacity := fun m hm => by
        rw [capacity_enqueue]
        exact hlt m (List.mem_cons_of_mem n hm)
      obtain ⟨hcapacity, hresult, hqueued, more, hwork, hnodup, hmore⟩ := ih hlt'
      refine ⟨?_, ?_, fun m => ?_, ?_⟩
      · rw [List.foldl_cons, hcapacity, capacity_enqueue]
      · rw [List.foldl_cons, hresult, result_enqueue]
      · rw [List.foldl_cons, hqueued, contains_enqueue hn, List.mem_cons, or_assoc]
      · by_cases hold : s.queued.contains n = true
        · have hsame : s.enqueue n = s := if_pos hold
          rw [hsame] at hwork hmore
          refine ⟨more, by rw [List.foldl_cons, hsame, hwork], hnodup, fun m => ?_⟩
          rw [hmore, List.mem_cons]
          refine and_congr_left fun hm => (or_iff_right ?_).symm
          rintro rfl
          exact hm hold
        · have hpushed : (s.enqueue n).work = n :: s.work := by rw [enqueue, if_neg hold]
          have hlast : n ∉ more := fun hmem =>
            ((hmore n).1 hmem).2 ((contains_enqueue hn).2 (.inr rfl))
          refine ⟨more ++ [n], ?_, ?_, fun m => ?_⟩
          · rw [List.foldl_cons, hwork, hpushed, List.append_assoc, List.singleton_append]
          · have hfront : (n :: more).Nodup := List.nodup_cons.2 ⟨hlast, hnodup⟩
            exact (List.perm_append_singleton n more).nodup_iff.2 hfront
          · rw [List.mem_append, List.mem_singleton, hmore, contains_enqueue hn, List.mem_cons]
            by_cases hm : m = n
            · simp [hm, hold]
            · simp [hm]

/-- A whole frontier is entered into the result and put on the worklist. -/
theorem foldl_note (hlt : ∀ f ∈ nodes, f < s.queued.capacity)
    (hsub : ∀ f, s.result.contains f = true → s.queued.contains f = true) :
    nodes.foldl note s =
      nodes.foldl enqueue { s with result := nodes.foldl BitSet.add s.result } := by
  induction nodes generalizing s with
  | nil => rfl
  | cons f nodes ih =>
      have hf := hlt f List.mem_cons_self
      have hsub' : ∀ g, (s.result.add f).contains g = true →
          (s.enqueue f).queued.contains g = true := by
        intro g hg
        rw [BitSet.contains_add, Bool.or_eq_true, Bool.and_eq_true, decide_eq_true_eq] at hg
        rw [contains_enqueue hf]
        exact hg.imp (hsub g) And.left
      have hlt' : ∀ g ∈ nodes, g < (s.enqueue f).queued.capacity := fun g hg => by
        rw [capacity_enqueue]
        exact hlt g (List.mem_cons_of_mem f hg)
      have hnote := (note_eq (hsub f)).trans (enqueue_result s (s.result.add f) f)
      rw [List.foldl_cons, hnote, List.foldl_cons, List.foldl_cons,
        enqueue_result s (nodes.foldl BitSet.add (s.result.add f)) f]
      exact @ih { s.enqueue f with result := s.result.add f } hlt' hsub'

/-! ## The search -/

/-- What a search for an iterated frontier has found are the nodes that it has
followed. -/
structure Shows (d : Dominators) (s : FrontierSearch) (w : Worklist NodeId) : Prop where
  work : s.work = w.work
  once : (w.found ++ w.work).Nodup
  capacity_queued : s.queued.capacity = d.sets.size
  capacity_result : s.result.capacity = d.sets.size
  queued : ∀ n, s.queued.contains n = true ↔ n ∈ w.found ∨ n ∈ w.work
  result : ∀ f, s.result.contains f = true ↔ ∃ n ∈ w.found, f ∈ d.frontier n

/-- The search begins with the nodes among the given numbers. -/
theorem shows_begin (d : Dominators) (defs : List NodeId) :
    Shows d (begin d defs) ⟨[], (begin d defs).work⟩ ∧
      ∀ n < d.sets.size, n ∈ (begin d defs).work ↔ n ∈ defs := by
  have hlt : ∀ n ∈ defs.filter (· < d.sets.size), n < d.sets.size := fun n hn => by
    simpa using (List.mem_filter.1 hn).2
  obtain ⟨hcapacity, hresult, hqueued, more, hwork, hnodup, hmore⟩ : Enqueued _ _ (begin d defs) :=
    enqueued_foldl hlt
  generalize begin d defs = s at *
  simp only [List.append_nil] at hwork
  have hmem : ∀ n, n ∈ s.work ↔ n ∈ defs ∧ n < d.sets.size := fun n => by
    rw [hwork, hmore]
    simp
  refine ⟨⟨rfl, hwork ▸ hnodup, hcapacity, by rw [hresult]; rfl, fun n => ?_, fun f => ?_⟩,
    fun n hn => (hmem n).trans (and_iff_left hn)⟩
  · rw [hqueued, hmem]
    simp
  · rw [hresult]
    simp

/-- What is in the result has been on the worklist. -/
theorem Shows.queued_of_result (hrange : ∀ n, ∀ f ∈ d.frontier n, f < d.sets.size)
    (h : Shows d s ⟨found, work⟩)
    (hw : Worklist.Searching d.frontier (List.range d.sets.size) roots ⟨found, work⟩)
    (hf : s.result.contains f = true) : s.queued.contains f = true := by
  obtain ⟨m, hm, hmf⟩ := (h.result f).1 hf
  exact (h.queued f).2 (hw.closed m hm f hmf (List.mem_range.2 (hrange m f hmf)))

/-- Following a node enters its frontier into the result, and puts it on the
worklist. -/
theorem Shows.advance?_eq (hrange : ∀ n, ∀ f ∈ d.frontier n, f < d.sets.size)
    (h : Shows d s ⟨found, n :: rest⟩)
    (hw : Worklist.Searching d.frontier (List.range d.sets.size) roots ⟨found, n :: rest⟩) :
    advance? d s = some ((d.frontier n).foldl enqueue
      ⟨(d.frontier n).foldl BitSet.add s.result, s.queued, rest⟩) := by
  have hlt : ∀ f ∈ d.frontier n, f < s.queued.capacity := by
    rw [h.capacity_queued]
    exact hrange n
  have hsub : ∀ f, s.result.contains f = true → s.queued.contains f = true := fun f hf =>
    h.queued_of_result hrange hw hf
  rw [advance?, h.work]
  exact congrArg some (@foldl_note ⟨s.result, s.queued, rest⟩ (d.frontier n) hlt hsub)

/-- To follow a node is to find it. -/
theorem Shows.step (hrange : ∀ n, ∀ f ∈ d.frontier n, f < d.sets.size)
    (h : Shows d s ⟨found, n :: rest⟩)
    (hw : Worklist.Searching d.frontier (List.range d.sets.size) roots ⟨found, n :: rest⟩) :
    ∃ s' w', advance? d s = some s' ∧ Shows d s' w' ∧
      Worklist.Step d.frontier (List.range d.sets.size) ⟨found, n :: rest⟩ w' := by
  have hn : n < d.sets.size := by
    rw [← h.capacity_queued]
    exact BitSet.lt_capacity_of_contains ((h.queued n).2 (.inr List.mem_cons_self))
  have hlt : ∀ f ∈ d.frontier n, f < s.queued.capacity := by
    rw [h.capacity_queued]
    exact hrange n
  have hadvance := h.advance?_eq hrange hw
  obtain ⟨hcapacity, hresult, hqueued, more, hwork, hnodup, hmore⟩ := @enqueued_foldl
    ⟨(d.frontier n).foldl BitSet.add s.result, s.queued, rest⟩ (d.frontier n) hlt
  generalize (d.frontier n).foldl enqueue _ = s' at *
  dsimp only at hcapacity hresult hqueued hwork hmore
  -- What has been on the list is found or still there, and the rest is new.
  have hold : ∀ m, s.queued.contains m = true → m ∈ n :: found ∨ m ∈ more ++ rest := by
    intro m hm
    rcases (h.queued m).1 hm with hfound | hrest
    · exact .inl (List.mem_cons_of_mem n hfound)
    · rcases List.mem_cons.1 hrest with rfl | hrest
      · exact .inl List.mem_cons_self
      · exact .inr (List.mem_append_right more hrest)
  have hall : ∀ f ∈ d.frontier n, f ∈ n :: found ∨ f ∈ more ++ rest := by
    intro f hf
    by_cases hqueue : s.queued.contains f = true
    · exact hold f hqueue
    · exact .inr (List.mem_append_left rest ((hmore f).2 ⟨hf, hqueue⟩))
  have honce : (more ++ (found ++ n :: rest)).Nodup := by
    refine List.nodup_append.2 ⟨hnodup, h.once, ?_⟩
    rintro m hm _ hmem rfl
    exact ((hmore m).1 hm).2 ((h.queued m).2 (List.mem_append.1 hmem))
  have hperm : (more ++ (found ++ n :: rest)).Perm (n :: found ++ (more ++ rest)) :=
    List.perm_iff_count.2 fun m => by simp only [List.count_append, List.count_cons]; omega
  have hfresh : n ∉ found := fun hmem =>
    (List.nodup_append.1 h.once).2.2 n hmem n List.mem_cons_self rfl
  refine ⟨s', ⟨n :: found, more ++ rest⟩, hadvance, ?_, .find (List.mem_range.2 hn) hfresh
    (fun f hf => ((hmore f).1 hf).1) fun f hf _ => hall f hf⟩
  refine ⟨hwork, hperm.nodup_iff.1 honce, hcapacity.trans h.capacity_queued, ?_, fun m => ?_,
    fun f => ?_⟩
  · rw [hresult, BitSet.capacity_foldl_add, h.capacity_result]
  · rw [hqueued]
    refine ⟨fun hm => hm.elim (hold m) (hall m), ?_⟩
    rintro (hm | hm)
    · refine .inl ((h.queued m).2 ?_)
      rcases List.mem_cons.1 hm with rfl | hm
      · exact .inr List.mem_cons_self
      · exact .inl hm
    · rcases List.mem_append.1 hm with hm | hm
      · exact .inr ((hmore m).1 hm).1
      · exact .inl ((h.queued m).2 (.inr (List.mem_cons_of_mem n hm)))
  · rw [hresult, BitSet.contains_foldl_add, h.result, List.exists_mem_cons_iff, or_comm]
    exact or_congr_left (and_iff_left_of_imp fun hf => h.capacity_result ▸ hrange n f hf)

end FrontierSearch

/-- **The search ends with the iterated frontier**, on a graph made by adding
nodes and edges, and on its reverse. -/
theorem Dominators.runs_iteratedFrontier {v : View} (hv : v.Linked) (root : NodeId)
    (defs : List NodeId) :
    ∃ s, FrontierSearch.Runs (compute v root) (.begin (compute v root) defs) s ∧ s.work = [] ∧
      s.result.toList = (compute v root).iteratedFrontier defs := by
  have hsize : (compute v root).sets.size = v.size := (kept_compute hv root).size_eq
  have hrange : ∀ n, ∀ f ∈ (compute v root).frontier n, f < (compute v root).sets.size := by
    intro n f hf
    obtain ⟨⟨p, hedge, -⟩, -⟩ := (mem_frontier hv).1 hf
    rw [hsize]
    exact hv.target_lt hedge
  obtain ⟨hbegin, hwork⟩ := FrontierSearch.shows_begin (compute v root) defs
  obtain ⟨s, found, hrun, hs, hend⟩ := Worklist.Searching.exists_end
    (fun s found n rest hs hw => FrontierSearch.Shows.step hrange hs hw)
    (.start fun n hn => hwork n (List.mem_range.1 hn)) hbegin
  refine ⟨s, hrun, hs.work, congrArg BitSet.toList (BitSet.ext_contains ?_ fun f => ?_)⟩
  · rw [hs.capacity_result, ← List.foldl_flatMap, BitSet.capacity_foldl_add]
    rfl
  · rw [Bool.eq_iff_iff, ← BitSet.mem_toList (s := List.foldl _ _ _)]
    refine Iff.trans ?_ (mem_iteratedFrontier hv).symm
    rw [hs.result, View.nodes, ← hsize]
    exact exists_congr fun n => and_congr_left' hend.mem_found

end MethodFlow
