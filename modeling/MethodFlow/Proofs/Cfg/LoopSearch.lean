import Mathlib.Data.List.Perm.Subperm
import MethodFlow.Data.SortedSet
import MethodFlow.Proofs.Cfg.LoopForest
import MethodFlow.Proofs.Graph.Worklists

/-!
# Finding the loops one by one

`View.loopForest` says which loops there are, header by header, so their order
needs no proof.  A program meets the back edges by source instead.  It collects
the nodes of each back edge with a worklist, looks through the loops found so
far for one with the header and the nodes, and adds the edge to it or opens a
new loop at the end of the list.  When it has met all back edges it compares
the loops with each other to know their depths, and sorts them.

Of one header the list holds at all times what `View.addLatch` makes of the
latches met so far, so in the end it holds the loops of `View.loopForest` in
some order.  Since no two of these have the header and the first back edge in
common, there is only one way to sort them.

## Main results

* `View.runs_loopBody`: the worklist collects the nodes of the loop.
* `View.Collected.addBackEdge`: what one back edge keeps.
* `View.naturalLoops_eq`, `Cfg.naturalLoops_eq`: the sorted list is that of the
  forest.
-/

namespace MethodFlow

/-! ## Sorting -/

/-- Sorting by keys gives the arrangement in which the keys ascend, if there is
one. -/
theorem mergeSort_eq_of_ascends {α κ : Type} [Ordered κ] (key : α → κ) {l l' : List α}
    (hperm : l.Perm l')
    (hascends : l'.Pairwise fun a b => Ordered.before (key a) (key b) = true) :
    l.mergeSort (fun a b => !Ordered.before (key b) (key a)) = l' := by
  have htrans : ∀ a b c : α, (!Ordered.before (key b) (key a)) = true →
      (!Ordered.before (key c) (key b)) = true → (!Ordered.before (key c) (key a)) = true := by
    intro a b c hba hcb
    simp only [Bool.not_eq_true'] at hba hcb ⊢
    by_contra hca
    rw [Bool.not_eq_false] at hca
    cases hab : Ordered.before (key a) (key b) with
    | true => rw [Ordered.before_trans _ _ _ hca hab] at hcb; cases hcb
    | false => rw [← Ordered.before_connex _ _ hab hba, hca] at hcb; cases hcb
  have htotal : ∀ a b : α,
      (!Ordered.before (key b) (key a) || !Ordered.before (key a) (key b)) = true := by
    intro a b
    cases hba : Ordered.before (key b) (key a) with
    | true => rw [Ordered.before_asymm hba]; rfl
    | false => rfl
  have hkeys : (l'.map key).Nodup :=
    List.pairwise_map.2 (hascends.imp fun h => Ordered.ne_of_before h)
  refine List.Perm.eq_of_pairwise (fun a b ha hb hab hba => ?_)
    (List.pairwise_mergeSort htrans htotal l)
    (hascends.imp fun h => by rw [Ordered.before_asymm h]; rfl)
    ((List.mergeSort_perm l _).trans hperm)
  have ha' : a ∈ l' := hperm.mem_iff.1 (List.mem_mergeSort.1 ha)
  refine List.inj_on_of_nodup_map hkeys ha' hb (Ordered.before_connex _ _ ?_ ?_)
  · simpa using hba
  · simpa using hab

/-- Changing the first element that passes a test, where no other one does. -/
theorem modify_findIdx? {α : Type} {p : α → Bool} (f : α → α) {l : List α} {i : Nat}
    (honce : l.Pairwise fun a b => ¬ (p a = true ∧ p b = true)) (hi : l.findIdx? p = some i) :
    l.modify i f = l.map fun a => if p a then f a else a := by
  induction l generalizing i with
  | nil => cases hi
  | cons a l ih =>
      obtain ⟨ha, hrest⟩ := List.pairwise_cons.1 honce
      rw [List.findIdx?_cons] at hi
      by_cases hp : p a = true
      · rw [if_pos hp] at hi
        cases hi
        have hothers : (l.map fun a => if p a then f a else a) = l := by
          rw [List.map_congr_left fun b hb => if_neg fun hpb => ha b hb ⟨hp, hpb⟩, List.map_id']
        rw [List.map_cons, if_pos hp, hothers]
        rfl
      · rw [if_neg hp] at hi
        obtain ⟨j, hj, rfl⟩ := Option.map_eq_some_iff.1 hi
        rw [List.map_cons, if_neg hp, ← ih hrest hj]
        rfl

/-- Changing the first element that passes a test, or adding one if none does,
where no two elements pass it. -/
theorem modify_or_append {α : Type} {p : α → Bool} (f : α → α) (new : α) {l : List α}
    (honce : l.Pairwise fun a b => ¬ (p a = true ∧ p b = true)) :
    (match l.findIdx? p with
      | some i => l.modify i f
      | none => l ++ [new]) =
      if l.any p then l.map fun a => if p a then f a else a else l ++ [new] := by
  rw [← List.findIdx?_isSome]
  cases hfirst : l.findIdx? p with
  | some i => exact modify_findIdx? f honce hfirst
  | none => rfl

/-! ## The nodes of a loop -/

/-- The search for the nodes of a loop under way. -/
structure BodySearch where
  body : BitSet
  /-- The nodes still to be looked at, the next one first. -/
  work : List NodeId

namespace BodySearch

variable {v : View} {d : Dominators} {s : BodySearch} {found rest : List NodeId} {h n : Nat}

/-- Looks at the next node.  If it is new, those of its predecessors come next
that are new as well and that the header dominates, the last of them first. -/
def advance? (v : View) (d : Dominators) (h : NodeId) (s : BodySearch) : Option BodySearch :=
  match s.work with
  | [] => none
  | n :: rest =>
    if s.body.contains n then some ⟨s.body, rest⟩
    else
      let body := s.body.add n
      some ⟨body, ((v.pred n).filter fun p => !body.contains p && d.dominates h p).reverse ++ rest⟩

/-- The search leads from one state to the other. -/
def Runs (v : View) (d : Dominators) (h : NodeId) : BodySearch → BodySearch → Prop :=
  Relation.ReflTransGen fun s s' => advance? v d h s = some s'

/-- The nodes that a loop with the header `h` may have besides the header. -/
def candidates (v : View) (d : Dominators) (h : NodeId) : List NodeId :=
  v.nodes.filter fun n => n ≠ h && d.dominates h n

theorem mem_candidates :
    n ∈ candidates v d h ↔ n < v.size ∧ n ≠ h ∧ d.dominates h n = true := View.mem_candidates

/-- What a search for the nodes of a loop has found is in the body besides the
header. -/
structure Shows (v : View) (d : Dominators) (h : NodeId) (s : BodySearch)
    (w : Worklist NodeId) : Prop where
  work : s.work = w.work
  capacity : s.body.capacity = v.size
  body : ∀ n, s.body.contains n = true ↔ n = h ∨ n ∈ w.found
  dominated : ∀ n ∈ w.work, n < v.size ∧ d.dominates h n = true

theorem Shows.step (hv : v.Linked) (hs : Shows v d h s ⟨found, n :: rest⟩) :
    ∃ s' w', advance? v d h s = some s' ∧ Shows v d h s' w' ∧
      Worklist.Step v.pred (candidates v d h) ⟨found, n :: rest⟩ w' := by
  obtain ⟨hn, hdom⟩ := hs.dominated n List.mem_cons_self
  have hrest : ∀ m ∈ rest, m < v.size ∧ d.dominates h m = true := fun m hm =>
    hs.dominated m (List.mem_cons_of_mem n hm)
  by_cases hold : s.body.contains n = true
  · have hadvance : advance? v d h s = some ⟨s.body, rest⟩ := by
      simp only [advance?, hs.work, hold, if_true]
    refine ⟨_, ⟨found, rest⟩, hadvance, ⟨rfl, hs.capacity, hs.body, hrest⟩, .skip fun hpool => ?_⟩
    exact ((hs.body n).1 hold).resolve_left (mem_candidates.1 hpool).2.1
  · have hadvance : advance? v d h s = some ⟨s.body.add n, ((v.pred n).filter fun p =>
        !(s.body.add n).contains p && d.dominates h p).reverse ++ rest⟩ := by
      simp only [advance?, hs.work, if_neg hold]
    have hfresh : n ≠ h ∧ n ∉ found := not_or.1 fun hnot => hold ((hs.body n).2 hnot)
    have hadded : ∀ m, (s.body.add n).contains m = true ↔ m = h ∨ m ∈ n :: found := by
      intro m
      rw [BitSet.contains_add, Bool.or_eq_true, hs.body, hs.capacity, List.mem_cons]
      simp only [hn, decide_true, Bool.and_true, decide_eq_true_eq]
      exact or_assoc.trans (or_congr_right or_comm)
    have hmore : ∀ p, p ∈ ((v.pred n).filter fun p =>
        !(s.body.add n).contains p && d.dominates h p).reverse ↔
          p ∈ v.pred n ∧ (s.body.add n).contains p = false ∧ d.dominates h p = true := by
      intro p
      rw [List.mem_reverse, List.mem_filter, Bool.and_eq_true, Bool.not_eq_true']
    refine ⟨_, ⟨n :: found, _ ++ rest⟩, hadvance, ⟨rfl, ?_, hadded, fun p hp => ?_⟩,
      .find (mem_candidates.2 ⟨hn, hfresh.1, hdom⟩) hfresh.2 (fun p hp => ((hmore p).1 hp).1)
        fun p hp hpool => ?_⟩
    · rw [BitSet.capacity_add, hs.capacity]
    · rcases List.mem_append.1 hp with hp | hp
      · obtain ⟨hpred, -, hdom'⟩ := (hmore p).1 hp
        exact ⟨hv.source_lt (hv.mem_pred.1 hpred), hdom'⟩
      · exact hrest p hp
    · by_cases hp' : (s.body.add n).contains p = true
      · exact .inl (((hadded p).1 hp').resolve_left (mem_candidates.1 hpool).2.1)
      · refine .inr (List.mem_append_left rest ((hmore p).2 ⟨hp, ?_, (mem_candidates.1 hpool).2.2⟩))
        exact Bool.not_eq_true _ ▸ hp'

end BodySearch

/-- **The worklist collects the nodes of the loop** of a back edge. -/
theorem View.runs_loopBody {v : View} {d : Dominators} {a h : NodeId} (hv : v.Linked)
    (hedge : h ∈ v.succ a) (hdom : d.dominates h a = true) :
    ∃ s, BodySearch.Runs v d h ⟨(BitSet.empty v.size).add h, [a]⟩ s ∧ s.work = [] ∧
      s.body = v.loopBody d a h := by
  have hbegin : BodySearch.Shows v d h ⟨(BitSet.empty v.size).add h, [a]⟩ ⟨[], [a]⟩ := by
    refine ⟨rfl, BitSet.capacity_add _ _, fun n => ?_, ?_⟩
    · have hempty : (BitSet.empty v.size).capacity = v.size := rfl
      rw [BitSet.contains_add, BitSet.contains_empty, hempty]
      simp [hv.target_lt hedge]
    · exact List.forall_mem_singleton.2 ⟨hv.source_lt hedge, hdom⟩
  obtain ⟨s, found, hrun, hs, hend⟩ := Worklist.Searching.exists_end
    (fun s found n rest hs _ => BodySearch.Shows.step hv hs)
    (.start fun n _ => Iff.rfl) hbegin
  refine ⟨s, hrun, hs.work, BitSet.ext_contains ?_ fun n => Bool.eq_iff_iff.2 ?_⟩
  · rw [hs.capacity, capacity_loopBody]
  · rw [hs.body, contains_loopBody (hv.target_lt hedge)]
    exact or_congr_right hend.mem_found

/-! ## The list of loops -/

namespace NaturalLoop

/-- Adds a back edge by its source. -/
def addLatch (l : NaturalLoop) (a : NodeId) : NaturalLoop := { l with latches := l.latches ++ [a] }

/-- Whether a loop has the header and the nodes of a back edge. -/
def fits (v : View) (d : Dominators) (e : NodeId × NodeId) (l : NaturalLoop) : Bool :=
  l.header == e.2 && l.body == v.loopBody d e.1 e.2

/-- Whether a loop has more nodes than another, and all of those of the other. -/
def surrounds (outer inner : NaturalLoop) : Bool :=
  decide (inner.size < outer.size) && inner.body.toList.all outer.contains

/-- What loops are sorted by: the header, and the source of the first back
edge. -/
def key (l : NaturalLoop) : NodeId × Option NodeId := (l.header, l.backEdges.head?.map Prod.fst)

end NaturalLoop

namespace View

variable {v : View} {d : Dominators} {loops : List NaturalLoop} {l l' : NaturalLoop}
  {seen : List (NodeId × NodeId)} {e : NodeId × NodeId} {h : Nat}

/-- The back edges as a walk over the nodes and their successors finds them,
sorted. -/
def sortedBackEdges (v : View) (d : Dominators) : List (NodeId × NodeId) :=
  let edges := v.nodes.flatMap fun s =>
    ((v.succ s).filter fun t => d.dominates t s).map fun t => (s, t)
  edges.mergeSort fun e e' => !Ordered.before e' e

/-- Adds a back edge to the first loop that has its header and its nodes, or as
a loop of its own. -/
def addBackEdge (v : View) (d : Dominators) (loops : List NaturalLoop) (e : NodeId × NodeId) :
    List NaturalLoop :=
  match loops.findIdx? (NaturalLoop.fits v d e) with
  | some i => loops.modify i (·.addLatch e.1)
  | none => loops ++ [⟨e.2, v.loopBody d e.1 e.2, [e.1], 0⟩]

/-- Enters the depths, then sorts. -/
def arrange (loops : List NaturalLoop) : List NaturalLoop :=
  let depths := loops.map fun inner => loops.countP fun outer => outer.surrounds inner
  (List.zipWith (fun l depth => { l with depth }) loops depths).mergeSort
    fun l l' => !Ordered.before l'.key l.key

/-- The loops, found back edge by back edge. -/
def naturalLoops (v : View) (d : Dominators) : List NaturalLoop :=
  arrange ((v.sortedBackEdges d).foldl (v.addBackEdge d) [])

/-! ## Back edges in order -/

theorem ascends_backEdges (v : View) (d : Dominators) : Ascends (v.backEdges d) := by
  refine List.pairwise_flatMap.2 ⟨fun s _ => ?_, ?_⟩
  · refine List.pairwise_map.2 ((List.pairwise_lt_range.filter _).imp fun hlt => ?_)
    simp [Ordered.before, hlt]
  · refine List.pairwise_lt_range.imp fun {s s'} hlt e he e' he' => ?_
    obtain ⟨t, -, rfl⟩ := List.mem_map.1 he
    obtain ⟨t', -, rfl⟩ := List.mem_map.1 he'
    simp [Ordered.before, hlt]

theorem sortedBackEdges_eq (hv : v.Linked) (hnodup : ∀ n, (v.succ n).Nodup) (d : Dominators) :
    v.sortedBackEdges d = v.backEdges d := by
  refine mergeSort_eq_of_ascends id ?_ (v.ascends_backEdges d)
  refine (List.perm_ext_iff_of_nodup ?_ ?_).2 fun e => ?_
  · refine List.nodup_flatMap.2 ⟨fun s _ => ?_, List.nodup_range.imp fun hne => ?_⟩
    · exact ((hnodup s).filter _).map fun t t' h => (Prod.mk.inj h).2
    · rintro e he he'
      obtain ⟨t, -, rfl⟩ := List.mem_map.1 he
      obtain ⟨t', -, heq⟩ := List.mem_map.1 he'
      exact hne (Prod.mk.inj heq).1.symm
  · exact (v.ascends_backEdges d).imp fun h => Ordered.ne_of_before h
  · obtain ⟨a, h⟩ := e
    rw [mem_backEdges hv]
    simp only [List.mem_flatMap, List.mem_map, List.mem_filter, Prod.mk.injEq]
    constructor
    · rintro ⟨s, -, t, ⟨hedge, hdom⟩, rfl, rfl⟩
      exact ⟨hedge, hdom⟩
    · rintro ⟨hedge, hdom⟩
      exact ⟨a, List.mem_range.2 (hv.source_lt hedge), h, ⟨hedge, hdom⟩, rfl, rfl⟩

/-- The back edges to a header are its latches. -/
theorem map_fst_backEdges (hv : v.Linked) (d : Dominators) (h : NodeId) :
    ((v.backEdges d).filter fun e => e.2 == h).map Prod.fst = v.latches d h := by
  have hascends : Ascends (((v.backEdges d).filter fun e => e.2 == h).map Prod.fst) := by
    refine List.pairwise_map.2 (((v.ascends_backEdges d).filter _).imp_of_mem ?_)
    rintro ⟨a, t⟩ ⟨a', t'⟩ he he' hbefore
    obtain rfl : t = h := beq_iff_eq.1 (List.mem_filter.1 he).2
    obtain rfl : t' = t := beq_iff_eq.1 (List.mem_filter.1 he').2
    simpa [Ordered.before] using hbefore
  have hlatches : Ascends (v.latches d h) := (v.ascends_latches d h).imp fun hlt => by
    simpa [Ordered.before] using hlt
  have hsets : (⟨_, hascends⟩ : SortedSet NodeId) = ⟨_, hlatches⟩ := by
    refine SortedSet.ext_mem fun a => ?_
    have hmem : a ∈ ((v.backEdges d).filter fun e => e.2 == h).map Prod.fst ↔
        (a, h) ∈ v.backEdges d := by
      simp
    exact hmem.trans ((mem_backEdges hv).trans
      ⟨fun hback => mem_latches.2 ⟨hv.source_lt hback.1, hback⟩, fun ha => (mem_latches.1 ha).2⟩)
  exact congrArg SortedSet.elems hsets

/-! ## Back edge by back edge -/

/-- No two loops have the header and the nodes in common. -/
def Distinct (loops : List NaturalLoop) : Prop :=
  loops.Pairwise fun l l' => ¬ (l.header = l'.header ∧ l.body = l'.body)

/-- The loops when the back edges `seen` have been met: those of a header are
what its latches make. -/
structure Collected (v : View) (d : Dominators) (seen : List (NodeId × NodeId))
    (loops : List NaturalLoop) : Prop where
  distinct : Distinct loops
  loops : ∀ h, loops.filter (fun l => l.header == h) =
    ((seen.filter fun e => e.2 == h).map Prod.fst).foldl (v.addLatch d h) []

theorem fits_iff : l.fits v d e = true ↔ l.header = e.2 ∧ l.body = v.loopBody d e.1 e.2 := by
  rw [NaturalLoop.fits, Bool.and_eq_true, beq_iff_eq, beq_iff_eq]

/-- Since no two loops have the header and the nodes in common, the first one
that has them is the only one. -/
theorem addBackEdge_eq (h : Distinct loops) (e : NodeId × NodeId) :
    v.addBackEdge d loops e =
      if loops.any (NaturalLoop.fits v d e) then
        loops.map fun l => if l.fits v d e then l.addLatch e.1 else l
      else loops ++ [⟨e.2, v.loopBody d e.1 e.2, [e.1], 0⟩] := by
  refine modify_or_append (·.addLatch e.1) _ (h.imp fun {l l'} hne hboth => hne ?_)
  obtain ⟨hheader, hbody⟩ := fits_iff.1 hboth.1
  obtain ⟨hheader', hbody'⟩ := fits_iff.1 hboth.2
  exact ⟨hheader.trans hheader'.symm, hbody.trans hbody'.symm⟩

theorem Distinct.addBackEdge (h : Distinct loops) (e : NodeId × NodeId) :
    Distinct (v.addBackEdge d loops e) := by
  rw [addBackEdge_eq h]
  split
  · refine List.pairwise_map.2 (h.imp fun {l l'} hne => ?_)
    split <;> split <;> exact hne
  · next hnone =>
    refine List.pairwise_append.2 ⟨h, List.pairwise_singleton _ _, fun l hl l' hl' hboth => ?_⟩
    obtain rfl := List.mem_singleton.1 hl'
    exact hnone (List.any_eq_true.2 ⟨l, hl, fits_iff.2 hboth⟩)

private theorem filter_header_map (e : NodeId × NodeId) (loops : List NaturalLoop) (h : NodeId) :
    (loops.map fun l => if l.fits v d e then l.addLatch e.1 else l).filter
        (fun l => l.header == h) =
      (loops.filter fun l => l.header == h).map
        fun l => if l.fits v d e then l.addLatch e.1 else l := by
  rw [List.filter_map]
  refine congrArg _ (List.filter_congr fun l _ => ?_)
  rw [Function.comp_apply]
  split <;> rfl

/-- A back edge changes the loops of its header as a latch does. -/
theorem filter_addBackEdge (hd : Distinct loops) (a h : NodeId) :
    (v.addBackEdge d loops (a, h)).filter (fun l => l.header == h) =
      v.addLatch d h (loops.filter fun l => l.header == h) a := by
  have hany : (loops.filter fun l => l.header == h).any (fun l => l.body == v.loopBody d a h) =
      loops.any (NaturalLoop.fits v d (a, h)) := List.any_filter
  rw [addBackEdge_eq hd, View.addLatch, hany]
  split
  · rw [filter_header_map]
    refine List.map_congr_left fun l hl => ?_
    have hheader : l.header = h := beq_iff_eq.1 (List.mem_filter.1 hl).2
    have hfits : l.fits v d (a, h) = (l.body == v.loopBody d a h) := by
      rw [NaturalLoop.fits, hheader, beq_self_eq_true, Bool.true_and]
    rw [hfits]
    rfl
  · rw [List.filter_append]
    simp

/-- A back edge leaves the loops of other headers as they are. -/
theorem filter_addBackEdge_of_ne (hd : Distinct loops) {t : NodeId} (hne : h ≠ t) (a : NodeId) :
    (v.addBackEdge d loops (a, t)).filter (fun l => l.header == h) =
      loops.filter fun l => l.header == h := by
  rw [addBackEdge_eq hd]
  split
  · rw [filter_header_map]
    refine (List.map_congr_left fun l hl => if_neg fun hfits => hne ?_).trans (List.map_id' _)
    exact (beq_iff_eq.1 (List.mem_filter.1 hl).2).symm.trans (fits_iff.1 hfits).1
  · rw [List.filter_append]
    simp [hne.symm]

/-- What one more back edge keeps. -/
theorem Collected.addBackEdge (hc : Collected v d seen loops) (e : NodeId × NodeId) :
    Collected v d (seen ++ [e]) (v.addBackEdge d loops e) := by
  obtain ⟨a, t⟩ := e
  refine ⟨hc.distinct.addBackEdge _, fun h => ?_⟩
  rw [List.filter_append, List.map_append, List.foldl_append, ← hc.loops]
  by_cases ht : h = t
  · subst ht
    rw [filter_addBackEdge hc.distinct]
    simp
  · rw [filter_addBackEdge_of_ne hc.distinct ht]
    simp [Ne.symm ht]

theorem Collected.foldl (hc : Collected v d seen loops) (rest : List (NodeId × NodeId)) :
    Collected v d (seen ++ rest) (rest.foldl (v.addBackEdge d) loops) := by
  induction rest generalizing seen loops with
  | nil => rwa [List.append_nil]
  | cons e rest ih =>
      rw [List.append_cons]
      exact ih (hc.addBackEdge e)

/-- All back edges together make the loops of all headers. -/
theorem perm_loops (hv : v.Linked) (d : Dominators) :
    ((v.backEdges d).foldl (v.addBackEdge d) []).Perm (v.nodes.flatMap (v.loopsAt d)) := by
  have hstart : Collected v d [] [] := ⟨.nil, fun _ => rfl⟩
  have hc := hstart.foldl (v.backEdges d)
  rw [List.nil_append] at hc
  have hloops : ∀ h, ((v.backEdges d).foldl (v.addBackEdge d) []).filter (fun l => l.header == h) =
      v.loopsAt d h := by
    intro h
    rw [hc.loops, map_fst_backEdges hv, loopsAt]
  have hmem : ∀ l, l ∈ (v.backEdges d).foldl (v.addBackEdge d) [] ↔ l ∈ v.loopsAt d l.header := by
    intro l
    rw [← hloops, List.mem_filter]
    exact (and_iff_left (beq_self_eq_true l.header)).symm
  refine (List.perm_ext_iff_of_nodup ?_ (v.nodup_loops d).of_map).2 fun l => ?_
  · refine hc.distinct.imp ?_
    rintro l _ hne rfl
    exact hne ⟨rfl, rfl⟩
  · rw [hmem, List.mem_flatMap]
    constructor
    · intro hl
      have hg := v.grouped_loopsAt d l.header
      obtain ⟨a, ha⟩ := List.exists_mem_of_ne_nil _ (hg.nonempty l hl)
      have hedge := (View.mem_latches.1 ((hg.mem_latches hl).1 ha).1).2.1
      exact ⟨l.header, List.mem_range.2 (hv.target_lt hedge), hl⟩
    · rintro ⟨h, -, hl⟩
      rwa [(v.grouped_loopsAt d h).header l hl]

/-! ## Depths and order -/

/-- To have more nodes than a loop, and all of its nodes, is to have the loop
inside. -/
theorem surrounds_eq_inside (hcap : l.body.capacity = l'.body.capacity) :
    l'.surrounds l = l.inside l' := by
  have hsubset : l.body.toList.all l'.contains = true ↔ l.nodes ⊆ l'.nodes := by
    rw [List.all_eq_true]
    exact forall_congr' fun n => imp_congr_left BitSet.mem_toList
  rw [Bool.eq_iff_iff, NaturalLoop.inside_iff hcap, NaturalLoop.surrounds, Bool.and_eq_true,
    hsubset, decide_eq_true_eq, and_comm]
  refine and_congr_right fun hsub => ?_
  have hsubperm : l.body.toList.Subperm l'.body.toList :=
    l.body.nodup_toList.subperm fun n hn =>
      BitSet.mem_toList.2 (hsub (BitSet.mem_toList.1 hn))
  refine ⟨fun hlt hsup => ?_, fun hnot => ?_⟩
  · have hsubperm' : l'.body.toList.Subperm l.body.toList :=
      l'.body.nodup_toList.subperm fun n hn =>
        BitSet.mem_toList.2 (hsup (BitSet.mem_toList.1 hn))
    exact Nat.not_le.2 hlt hsubperm'.length_le
  · by_contra hle
    have hperm := hsubperm.perm_of_length_le (Nat.not_lt.1 hle)
    exact hnot fun n hn => BitSet.mem_toList.1 (hperm.mem_iff.2 (BitSet.mem_toList.2 hn))

theorem capacity_of_mem_loopsAt (hl : l ∈ v.nodes.flatMap (v.loopsAt d)) :
    l.body.capacity = v.size := by
  obtain ⟨h, -, hl⟩ := List.mem_flatMap.1 hl
  have hg := v.grouped_loopsAt d h
  obtain ⟨a, ha⟩ := List.exists_mem_of_ne_nil _ (hg.nonempty l hl)
  rw [← ((hg.mem_latches hl).1 ha).2, capacity_loopBody]

/-- **The sorted list is that of the forest.** -/
theorem naturalLoops_eq (hv : v.Linked) (hnodup : ∀ n, (v.succ n).Nodup) (d : Dominators) :
    v.naturalLoops d = (v.loopForest d).loops := by
  have hperm := perm_loops hv d
  rw [naturalLoops, sortedBackEdges_eq hv hnodup, arrange]
  refine mergeSort_eq_of_ascends NaturalLoop.key ?_ ?_
  · rw [List.zipWith_map_right, List.zipWith_self, loops_loopForest]
    refine (List.Perm.of_eq (List.map_congr_left fun l hl => ?_)).trans (hperm.map _)
    have hcap := capacity_of_mem_loopsAt (hperm.mem_iff.1 hl)
    rw [hperm.countP_eq]
    refine congrArg (fun depth => { l with depth }) (List.countP_congr fun outer houter => ?_)
    rw [surrounds_eq_inside (hcap.trans (capacity_of_mem_loopsAt houter).symm)]
  · refine (v.precedes_loops d).imp fun {l l'} hbefore => ?_
    rcases hbefore with hlt | ⟨hheader, a, a', ha, ha', hlt⟩
    · simp [NaturalLoop.key, Ordered.before, hlt]
    · simp [NaturalLoop.key, Ordered.before, hheader, ha, ha', hlt]

end View

/-- The loops of a control flow graph are those found back edge by back edge. -/
theorem Cfg.naturalLoops_eq {c : Cfg} (hc : c.graph.Built) :
    c.view.naturalLoops c.dominators = c.loopForest.loops :=
  View.naturalLoops_eq hc.linked hc.nodup_successors c.dominators

end MethodFlow
