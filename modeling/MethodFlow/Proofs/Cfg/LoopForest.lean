import Mathlib.Data.Finset.Dedup
import Mathlib.Data.List.Nodup
import Mathlib.Data.Set.Card
import Mathlib.Order.CompletePartialOrder
import MethodFlow.Proofs.Cfg.Loops

/-!
# The list of natural loops

The loops of one header are found latch by latch: a latch joins the loop that
has the nodes of its own natural loop, or opens a new one.  What this keeps is
that the latches of a loop are exactly those latches seen so far that have
its nodes, in the order in which they were seen.  Everything else that the
list promises follows from this one equation: no latch is lost or in two
loops, loops of one header differ, latches ascend, and so do the first
latches of the loops.

The nesting depth of a loop counts the loops around it.  Whatever is around a
loop is around the loops inside it too, so the depth grows inwards, and the
deepest of the loops around a node has none of the others inside it.  This
does not need loops to be nested or disjoint, which loops of one header need
not be.

## Main results

* `View.Grouped.addLatch`, `View.grouped_loopsAt`: what one latch and a whole
  header keep.
* `View.depth_lt_of_ssubset`: the depth grows inwards.
* `LoopForest.innermost?_spec`: the chosen loop is a deepest one.
* `Cfg.loopForest_exact`: what the list of loops holds, and in which order.
-/

namespace MethodFlow

/-! ## Loops as sets of nodes -/

namespace NaturalLoop

variable {l l' : NaturalLoop} {n : NodeId}

/-- The nodes of the loop. -/
def nodes (l : NaturalLoop) : Set NodeId := {n | l.contains n = true}

theorem mem_nodes : n ∈ l.nodes ↔ l.body.contains n = true := Iff.rfl

theorem nodes_inj (hcap : l.body.capacity = l'.body.capacity) :
    l.nodes = l'.nodes ↔ l.body = l'.body := by
  constructor
  · intro h
    refine BitSet.ext_contains hcap fun i => Bool.eq_iff_iff.2 ?_
    exact Set.ext_iff.1 h i
  · intro h
    simp only [nodes, contains, h]

/-- In one graph, a loop lies inside another when its nodes are some but not
all of the nodes of the other. -/
theorem inside_iff (hcap : l.body.capacity = l'.body.capacity) :
    l.inside l' = true ↔ l.nodes ⊂ l'.nodes := by
  have hmeet : l.body.meet l'.body = l.body ↔ l.nodes ⊆ l'.nodes := by
    constructor
    · intro h n hn
      have hboth : (l.body.meet l'.body).contains n = true := h.symm ▸ hn
      rw [BitSet.contains_meet, Bool.and_eq_true] at hboth
      exact hboth.2
    · intro h
      refine BitSet.ext_contains rfl fun n => Bool.eq_iff_iff.2 ?_
      rw [BitSet.contains_meet, Bool.and_eq_true]
      exact and_iff_left_of_imp fun hn => h hn
  rw [inside, Bool.and_eq_true, bne_iff_ne, beq_iff_eq, hmeet, ne_eq, ← nodes_inj hcap,
    Set.ssubset_iff_subset_ne, and_comm]

theorem mem_backEdges {a h : NodeId} : (a, h) ∈ l.backEdges ↔ a ∈ l.latches ∧ h = l.header := by
  simp only [backEdges, List.mem_map, Prod.mk.injEq]
  constructor
  · rintro ⟨s, hs, rfl, rfl⟩
    exact ⟨hs, rfl⟩
  · rintro ⟨ha, rfl⟩
    exact ⟨a, ha, rfl, rfl⟩

theorem map_fst_backEdges (l : NaturalLoop) : l.backEdges.map Prod.fst = l.latches := by
  rw [backEdges, List.map_map]
  exact List.map_id _

/-- Some latch of the first loop comes before all latches of the second. -/
def Earlier (l l' : NaturalLoop) : Prop := ∃ a ∈ l.latches, ∀ b ∈ l'.latches, a < b

/-- The first loop comes before the second by header, and for one header by
the source of the first back edge. -/
def Precedes (l l' : NaturalLoop) : Prop :=
  l.header < l'.header ∨ l.header = l'.header ∧ ∃ a a', l.backEdges.head? = some (a, l.header) ∧
    l'.backEdges.head? = some (a', l'.header) ∧ a < a'

theorem deeper_iff :
    l.deeper l' = true ↔ l.depth < l'.depth ∨ l.depth = l'.depth ∧ l'.size ≤ l.size := by
  simp only [deeper, Bool.or_eq_true, Bool.and_eq_true, decide_eq_true_eq, beq_iff_eq]

/-- The loop with one more latch, if it has the given nodes. -/
def grow (body : BitSet) (a : NodeId) (l : NaturalLoop) : NaturalLoop :=
  if l.body == body then { l with latches := l.latches ++ [a] } else l

@[simp] theorem header_grow (body : BitSet) (a : NodeId) (l : NaturalLoop) :
    (l.grow body a).header = l.header := by
  unfold grow
  split <;> rfl

@[simp] theorem body_grow (body : BitSet) (a : NodeId) (l : NaturalLoop) :
    (l.grow body a).body = l.body := by
  unfold grow
  split <;> rfl

theorem latches_grow (body : BitSet) (a : NodeId) (l : NaturalLoop) :
    (l.grow body a).latches = if body = l.body then l.latches ++ [a] else l.latches := by
  unfold grow
  by_cases hsame : body = l.body
  · simp [hsame]
  · simp [hsame, Ne.symm hsame]

end NaturalLoop

namespace View

variable {v : View} {d : Dominators} {a h : NodeId} {seen : List NodeId}
  {loops : List NaturalLoop} {l l' : NaturalLoop}

theorem capacity_loopBody : (v.loopBody d a h).capacity = v.size := by
  rw [loopBody, BitSet.capacity_foldl_add, BitSet.capacity_add]
  rfl

theorem mem_latches : a ∈ v.latches d h ↔ a < v.size ∧ h ∈ v.succ a ∧ d.dominates h a = true := by
  simp [latches, nodes]

/-! ## One header -/

/-- The loops of a header `h` when the latches `seen` have been treated. -/
structure Grouped (v : View) (d : Dominators) (h : NodeId) (seen : List NodeId)
    (loops : List NaturalLoop) : Prop where
  header : ∀ l ∈ loops, l.header = h
  latches : ∀ l ∈ loops, l.latches = seen.filter fun a => v.loopBody d a h == l.body
  nonempty : ∀ l ∈ loops, l.latches ≠ []
  covered : ∀ a ∈ seen, ∃ l ∈ loops, l.body = v.loopBody d a h
  distinct : loops.Pairwise fun l l' => l.body ≠ l'.body
  earlier : loops.Pairwise NaturalLoop.Earlier

theorem Grouped.mem_latches (hg : Grouped v d h seen loops) (hl : l ∈ loops) :
    a ∈ l.latches ↔ a ∈ seen ∧ v.loopBody d a h = l.body := by
  rw [hg.latches l hl, List.mem_filter, beq_iff_eq]

/-- A latch that has the nodes of a loop is added to it. -/
private theorem Grouped.join (hg : Grouped v d h seen loops) (hlast : ∀ b ∈ seen, b < a)
    (hfound : ∃ l ∈ loops, l.body = v.loopBody d a h) :
    Grouped v d h (seen ++ [a]) (loops.map (NaturalLoop.grow (v.loopBody d a h) a)) := by
  refine ⟨?_, ?_, ?_, ?_, ?_, ?_⟩
  · intro l hl
    obtain ⟨m, hm, rfl⟩ := List.mem_map.1 hl
    rw [NaturalLoop.header_grow, hg.header m hm]
  · intro l hl
    obtain ⟨m, hm, rfl⟩ := List.mem_map.1 hl
    rw [NaturalLoop.latches_grow, NaturalLoop.body_grow, hg.latches m hm, List.filter_append]
    by_cases hsame : v.loopBody d a h = m.body <;> simp [hsame]
  · intro l hl
    obtain ⟨m, hm, rfl⟩ := List.mem_map.1 hl
    rw [NaturalLoop.latches_grow]
    split
    · exact List.append_ne_nil_of_left_ne_nil (hg.nonempty m hm) _
    · exact hg.nonempty m hm
  · intro b hb
    obtain ⟨m, hm, hsame⟩ : ∃ m ∈ loops, m.body = v.loopBody d b h := by
      rcases List.mem_append.1 hb with hb | hb
      · exact hg.covered b hb
      · rw [List.mem_singleton.1 hb]
        exact hfound
    exact ⟨_, List.mem_map_of_mem hm, by rw [NaturalLoop.body_grow, hsame]⟩
  · refine List.pairwise_map.2 (hg.distinct.imp fun hne => ?_)
    rwa [NaturalLoop.body_grow, NaturalLoop.body_grow]
  · refine List.pairwise_map.2 (hg.earlier.imp_of_mem fun hm hm' hearlier => ?_)
    -- The latch comes after all latches before it, in whichever loop it is put.
    obtain ⟨b, hb, hbefore⟩ := hearlier
    have hba : b < a := hlast b ((hg.mem_latches hm).1 hb).1
    refine ⟨b, ?_, ?_⟩
    · rw [NaturalLoop.latches_grow]
      split
      · exact List.mem_append_left _ hb
      · exact hb
    · rw [NaturalLoop.latches_grow]
      split
      · exact List.forall_mem_append.2 ⟨hbefore, List.forall_mem_singleton.2 hba⟩
      · exact hbefore

/-- A latch with nodes of its own opens a loop. -/
private theorem Grouped.open (hg : Grouped v d h seen loops) (hlast : ∀ b ∈ seen, b < a)
    (hnew : ∀ l ∈ loops, l.body ≠ v.loopBody d a h) :
    Grouped v d h (seen ++ [a]) (loops ++ [⟨h, v.loopBody d a h, [a], 0⟩]) := by
  refine ⟨?_, ?_, ?_, ?_, ?_, ?_⟩
  · exact List.forall_mem_append.2 ⟨hg.header, List.forall_mem_singleton.2 rfl⟩
  · refine List.forall_mem_append.2 ⟨fun l hl => ?_, List.forall_mem_singleton.2 ?_⟩
    · have hother : v.loopBody d a h ≠ l.body := (hnew l hl).symm
      rw [List.filter_append, hg.latches l hl]
      simp [hother]
    · -- A latch seen before with the same nodes would have its loop in the list.
      have hnone : seen.filter (fun b => v.loopBody d b h == v.loopBody d a h) = [] := by
        refine List.filter_eq_nil_iff.2 fun b hb hsame => ?_
        obtain ⟨l, hl, hbody⟩ := hg.covered b hb
        exact hnew l hl (hbody.trans (beq_iff_eq.1 hsame))
      rw [List.filter_append, hnone]
      simp
  · refine List.forall_mem_append.2 ⟨hg.nonempty, List.forall_mem_singleton.2 ?_⟩
    exact List.cons_ne_nil a []
  · intro b hb
    rcases List.mem_append.1 hb with hb | hb
    · obtain ⟨l, hl, hbody⟩ := hg.covered b hb
      exact ⟨l, List.mem_append_left _ hl, hbody⟩
    · rw [List.mem_singleton.1 hb]
      exact ⟨_, List.mem_append_right _ (List.mem_singleton_self _), rfl⟩
  · refine List.pairwise_append.2 ⟨hg.distinct, List.pairwise_singleton _ _, fun l hl l' hl' => ?_⟩
    rw [List.mem_singleton.1 hl']
    exact hnew l hl
  · refine List.pairwise_append.2 ⟨hg.earlier, List.pairwise_singleton _ _, fun l hl l' hl' => ?_⟩
    rw [List.mem_singleton.1 hl']
    obtain ⟨b, hb⟩ := List.exists_mem_of_ne_nil _ (hg.nonempty l hl)
    refine ⟨b, hb, List.forall_mem_singleton.2 ?_⟩
    exact hlast b ((hg.mem_latches hl).1 hb).1

/-- What one more latch keeps. -/
theorem Grouped.addLatch (hg : Grouped v d h seen loops) (hlast : ∀ b ∈ seen, b < a) :
    Grouped v d h (seen ++ [a]) (v.addLatch d h loops a) := by
  unfold View.addLatch
  by_cases hfound : ∃ l ∈ loops, l.body = v.loopBody d a h
  · rw [if_pos (by simpa using hfound)]
    exact hg.join hlast hfound
  · rw [if_neg (by simpa using hfound)]
    exact hg.open hlast fun l hl hbody => hfound ⟨l, hl, hbody⟩

private theorem Grouped.foldl (hg : Grouped v d h seen loops) (rest : List NodeId)
    (hascends : (seen ++ rest).Pairwise (· < ·)) :
    Grouped v d h (seen ++ rest) (rest.foldl (v.addLatch d h) loops) := by
  induction rest generalizing seen loops with
  | nil => rwa [List.append_nil]
  | cons a rest ih =>
      have hlast : ∀ b ∈ seen, b < a := fun b hb =>
        (List.pairwise_append.1 hascends).2.2 b hb a List.mem_cons_self
      have hnext := ih (hg.addLatch hlast)
      rw [List.append_assoc, List.singleton_append] at hnext
      exact hnext hascends

theorem ascends_latches (v : View) (d : Dominators) (h : NodeId) :
    (v.latches d h).Pairwise (· < ·) :=
  List.pairwise_lt_range.filter _

/-- What the loops of one header promise when all its latches have been
treated. -/
theorem grouped_loopsAt (v : View) (d : Dominators) (h : NodeId) :
    Grouped v d h (v.latches d h) (v.loopsAt d h) := by
  have hstart : Grouped v d h [] [] := by
    refine ⟨?_, ?_, ?_, ?_, .nil, .nil⟩ <;> simp
  have hall := hstart.foldl (v.latches d h)
  rw [List.nil_append] at hall
  exact hall (v.ascends_latches d h)

/-! ## All headers -/

/-- What every loop of the list promises by itself. -/
structure Natural (v : View) (d : Dominators) (l : NaturalLoop) : Prop where
  header_lt : l.header < v.size
  nonempty : l.latches ≠ []
  latches : l.latches = (v.latches d l.header).filter fun a => v.loopBody d a l.header == l.body

theorem Natural.mem_latches (hl : v.Natural d l) :
    a ∈ l.latches ↔ a ∈ v.latches d l.header ∧ v.loopBody d a l.header = l.body := by
  rw [hl.latches, List.mem_filter, beq_iff_eq]

theorem Natural.exists_latch (hl : v.Natural d l) :
    ∃ a ∈ v.latches d l.header, v.loopBody d a l.header = l.body := by
  obtain ⟨a, ha⟩ := List.exists_mem_of_ne_nil _ hl.nonempty
  exact ⟨a, hl.mem_latches.1 ha⟩

theorem Natural.capacity_body (hl : v.Natural d l) : l.body.capacity = v.size := by
  obtain ⟨a, -, hbody⟩ := hl.exists_latch
  rw [← hbody, capacity_loopBody]

theorem Natural.ascends_latches (hl : v.Natural d l) : l.latches.Pairwise (· < ·) := by
  rw [hl.latches]
  exact (v.ascends_latches d l.header).filter _

theorem loops_loopForest (v : View) (d : Dominators) :
    (v.loopForest d).loops = (v.nodes.flatMap (v.loopsAt d)).map fun l =>
      { l with depth := (v.nodes.flatMap (v.loopsAt d)).countP fun outer => l.inside outer } := rfl

theorem natural_of_mem (hl : l ∈ (v.loopForest d).loops) : v.Natural d l := by
  rw [loops_loopForest] at hl
  obtain ⟨m, hm, rfl⟩ := List.mem_map.1 hl
  obtain ⟨h, hh, hm⟩ := List.mem_flatMap.1 hm
  have hg := v.grouped_loopsAt d h
  obtain rfl := hg.header m hm
  exact ⟨List.mem_range.1 hh, hg.nonempty m hm, hg.latches m hm⟩

/-- Every latch is in some loop. -/
theorem exists_loop (hh : h < v.size) (ha : a ∈ v.latches d h) :
    ∃ l ∈ (v.loopForest d).loops, l.header = h ∧ a ∈ l.latches := by
  have hg := v.grouped_loopsAt d h
  obtain ⟨m, hm, hbody⟩ := hg.covered a ha
  have hfound : m ∈ v.nodes.flatMap (v.loopsAt d) :=
    List.mem_flatMap.2 ⟨h, List.mem_range.2 hh, hm⟩
  rw [loops_loopForest]
  exact ⟨_, List.mem_map_of_mem hfound, hg.header m hm, (hg.mem_latches hm).2 ⟨ha, hbody.symm⟩⟩

/-- Loops come by header, and those of one header are different and come by
their first latch. -/
theorem pairwise_loops (v : View) (d : Dominators) :
    (v.loopForest d).loops.Pairwise fun l l' =>
      l.header < l'.header ∨ l.header = l'.header ∧ l.body ≠ l'.body ∧ l.Earlier l' := by
  rw [loops_loopForest, List.pairwise_map, List.pairwise_flatMap]
  refine ⟨fun h _ => ?_, List.pairwise_lt_range.imp fun {h h'} hlt l hl l' hl' => ?_⟩
  · have hg := v.grouped_loopsAt d h
    refine (hg.distinct.and hg.earlier).imp_of_mem fun {l l'} hl hl' hboth => .inr ?_
    exact ⟨(hg.header l hl).trans (hg.header l' hl').symm, hboth⟩
  · refine .inl ?_
    show l.header < l'.header
    rwa [(v.grouped_loopsAt d h).header l hl, (v.grouped_loopsAt d h').header l' hl']

theorem nodup_loops (v : View) (d : Dominators) : (v.loopForest d).loops.Nodup := by
  refine (v.pairwise_loops d).imp ?_
  rintro l l' hll' rfl
  rcases hll' with hlt | ⟨-, hne, -⟩
  · exact Nat.lt_irrefl _ hlt
  · exact hne rfl

/-- Loops of one header with the same nodes are one loop. -/
theorem eq_of_same (hl : l ∈ (v.loopForest d).loops) (hl' : l' ∈ (v.loopForest d).loops)
    (hheader : l.header = l'.header) (hbody : l.body = l'.body) : l = l' := by
  by_contra hne
  have hsym : Std.Symm fun l l' : NaturalLoop => ¬ (l.header = l'.header ∧ l.body = l'.body) :=
    ⟨fun _ _ hnot hboth => hnot ⟨hboth.1.symm, hboth.2.symm⟩⟩
  have hpairwise : (v.loopForest d).loops.Pairwise fun l l' =>
      ¬ (l.header = l'.header ∧ l.body = l'.body) := by
    refine (v.pairwise_loops d).imp fun {l l'} hll' hboth => ?_
    rcases hll' with hlt | ⟨-, hne, -⟩
    · exact Nat.ne_of_lt hlt hboth.1
    · exact hne hboth.2
  exact hpairwise.forall hl hl' hne ⟨hheader, hbody⟩

private theorem head?_backEdges (l : NaturalLoop) :
    l.backEdges.head? = l.latches.head?.map fun a => (a, l.header) := by
  rw [NaturalLoop.backEdges, List.head?_map]

theorem precedes_loops (v : View) (d : Dominators) :
    (v.loopForest d).loops.Pairwise NaturalLoop.Precedes := by
  refine (v.pairwise_loops d).imp_of_mem fun {l l'} hl hl' hll' => ?_
  rcases hll' with hlt | ⟨hheader, -, b, hb, hbefore⟩
  · exact .inl hlt
  · have hascends := (natural_of_mem hl).ascends_latches
    have hnonempty := (natural_of_mem hl').nonempty
    refine .inr ⟨hheader, ?_⟩
    rw [head?_backEdges, head?_backEdges]
    cases hfirst : l.latches with
    | nil => exact absurd (hfirst ▸ hb) List.not_mem_nil
    | cons a rest =>
        cases hfirst' : l'.latches with
        | nil => exact absurd hfirst' hnonempty
        | cons a' rest' =>
            rw [hfirst] at hb hascends
            rw [hfirst'] at hbefore
            -- Latches ascend, so the first latch of `l` is `b` or comes before it.
            have hba' : b < a' := hbefore a' List.mem_cons_self
            refine ⟨a, a', rfl, rfl, ?_⟩
            rcases List.mem_cons.1 hb with rfl | hb
            · exact hba'
            · exact Nat.lt_trans ((List.pairwise_cons.1 hascends).1 b hb) hba'

/-! ## Nesting -/

/-- The loops around a loop. -/
def around (v : View) (d : Dominators) (l : NaturalLoop) : Set NaturalLoop :=
  {outer | outer ∈ (v.loopForest d).loops ∧ l.nodes ⊂ outer.nodes}

theorem finite_around (v : View) (d : Dominators) (l : NaturalLoop) : (v.around d l).Finite :=
  (List.finite_toSet (v.loopForest d).loops).subset fun _ houter => houter.1

/-- The depth of a loop is the number of loops around it. -/
theorem depth_eq_ncard (hl : l ∈ (v.loopForest d).loops) : l.depth = (v.around d l).ncard := by
  have hdepth : l.depth = (v.loopForest d).loops.countP fun outer => l.inside outer := by
    rw [loops_loopForest] at hl ⊢
    obtain ⟨m, -, rfl⟩ := List.mem_map.1 hl
    rw [List.countP_map]
    rfl
  have haround : v.around d l =
      (((v.loopForest d).loops.filter fun outer => l.inside outer).toFinset : Set NaturalLoop) := by
    ext outer
    rw [List.coe_toFinset, Set.mem_ofPred_eq, List.mem_filter]
    refine and_congr_right fun houter => ?_
    refine (NaturalLoop.inside_iff ?_).symm
    rw [(natural_of_mem hl).capacity_body, (natural_of_mem houter).capacity_body]
  rw [hdepth, haround, Set.ncard_coe_finset, List.countP_eq_length_filter,
    List.toFinset_card_of_nodup ((v.nodup_loops d).filter _)]

/-- What is around a loop is around the loops inside it, and so is the loop
itself. -/
theorem depth_lt_of_ssubset (hl : l ∈ (v.loopForest d).loops) (hl' : l' ∈ (v.loopForest d).loops)
    (hinside : l.nodes ⊂ l'.nodes) : l'.depth < l.depth := by
  rw [depth_eq_ncard hl, depth_eq_ncard hl']
  refine Set.ncard_lt_ncard ?_ (v.finite_around d l)
  have hsub : v.around d l' ⊆ v.around d l := fun outer houter =>
    ⟨houter.1, hinside.trans houter.2⟩
  exact (Set.ssubset_iff_of_subset hsub).2 ⟨l', ⟨hl', hinside⟩, fun hself =>
    ssubset_irrefl _ hself.2⟩

end View

/-! ## The innermost loop -/

namespace LoopForest

/-- Choosing among loops keeps one of them, and none of them is deeper. -/
private theorem exists_chosen (loops : List NaturalLoop) (first : NaturalLoop) :
    ∃ l ∈ first :: loops,
      loops.foldl (fun best l =>
        match best with
        | some b => if b.deeper l then some l else some b
        | none => some l) (some first) = some l ∧
      ∀ l' ∈ first :: loops, l'.depth ≤ l.depth := by
  induction loops generalizing first with
  | nil => exact ⟨first, List.mem_singleton_self _, rfl, by simp⟩
  | cons m rest ih =>
      rw [List.foldl_cons]
      dsimp only
      split
      · next hdeeper =>
        have hle : first.depth ≤ m.depth := by
          have hcases := NaturalLoop.deeper_iff.1 hdeeper
          omega
        obtain ⟨l, hl, hfold, hall⟩ := ih m
        refine ⟨l, List.mem_cons_of_mem _ hl, hfold, List.forall_mem_cons.2 ⟨?_, hall⟩⟩
        exact Nat.le_trans hle (hall m List.mem_cons_self)
      · next hdeeper =>
        have hle : m.depth ≤ first.depth := by
          have hcases := mt NaturalLoop.deeper_iff.2 hdeeper
          omega
        obtain ⟨l, hl, hfold, hall⟩ := ih first
        obtain ⟨hfirst, hrest⟩ := List.forall_mem_cons.1 hall
        refine ⟨l, ?_, hfold, ?_⟩
        · rcases List.mem_cons.1 hl with rfl | hl
          · exact List.mem_cons_self
          · exact List.mem_cons_of_mem _ (List.mem_cons_of_mem _ hl)
        · refine List.forall_mem_cons.2 ⟨hfirst, List.forall_mem_cons.2 ⟨?_, hrest⟩⟩
          exact Nat.le_trans hle hfirst

/-- The innermost loop of a node is a deepest one that contains it; there is
none only when no loop does. -/
theorem innermost?_spec (f : LoopForest) (n : NodeId) :
    (f.innermost? n = none ∧ ∀ l ∈ f.loops, n ∉ l.nodes) ∨
      ∃ l ∈ f.loops, f.innermost? n = some l ∧ n ∈ l.nodes ∧
        ∀ l' ∈ f.loops, n ∈ l'.nodes → l'.depth ≤ l.depth := by
  have hmem : ∀ l, l ∈ f.loops.filter (fun l => l.contains n) ↔ l ∈ f.loops ∧ n ∈ l.nodes :=
    fun l => List.mem_filter
  unfold innermost?
  cases hfilter : f.loops.filter fun l => l.contains n with
  | nil =>
      refine .inl ⟨rfl, fun l hl hn => ?_⟩
      have hnone := (hmem l).2 ⟨hl, hn⟩
      rw [hfilter] at hnone
      exact absurd hnone List.not_mem_nil
  | cons first rest =>
      rw [hfilter] at hmem
      obtain ⟨l, hl, hfold, hall⟩ := exists_chosen rest first
      refine .inr ⟨l, ((hmem l).1 hl).1, hfold, ((hmem l).1 hl).2, fun l' hl' hn => ?_⟩
      exact hall l' ((hmem l').2 ⟨hl', hn⟩)

end LoopForest

namespace Cfg

/-- **The list of loops is exact.**  Every edge whose target dominates its
source is a back edge of exactly one loop, and loops have no other back
edges; the target is the header of that loop, and the nodes of the loop are
those of the natural loop of the edge.  Loops of one header have different
nodes.  Loops come by header and then by the source of their first back edge,
and the back edges of a loop by source.  The depth of a loop is the number of
loops whose nodes include those of the loop and more.  The innermost loop of a
node contains it, and no loop that contains it has only some of its nodes;
there is none exactly when no loop contains the node. -/
theorem loopForest_exact {c : Cfg} (hc : c.graph.Built) :
    (∀ a h, h ∈ c.view.succ a → c.dominators.dominates h a = true →
      ∃! l, l ∈ c.loopForest.loops ∧ (a, h) ∈ l.backEdges) ∧
    (∀ l ∈ c.loopForest.loops, l.backEdges ≠ [] ∧ ∀ a h, (a, h) ∈ l.backEdges →
      h ∈ c.view.succ a ∧ c.dominators.dominates h a = true ∧ l.header = h ∧
        l.body = c.view.loopBody c.dominators a h) ∧
    (c.loopForest.loops.Pairwise fun l l' => l.header = l'.header → l.nodes ≠ l'.nodes) ∧
    c.loopForest.loops.Pairwise NaturalLoop.Precedes ∧
    (∀ l ∈ c.loopForest.loops, (l.backEdges.map Prod.fst).Pairwise (· < ·)) ∧
    (∀ l ∈ c.loopForest.loops,
      l.depth = {outer | outer ∈ c.loopForest.loops ∧ l.nodes ⊂ outer.nodes}.ncard) ∧
    ∀ n, (c.loopForest.innermost? n = none ↔ ∀ l ∈ c.loopForest.loops, n ∉ l.nodes) ∧
      ∀ l, c.loopForest.innermost? n = some l → l ∈ c.loopForest.loops ∧ n ∈ l.nodes ∧
        ∀ l' ∈ c.loopForest.loops, n ∈ l'.nodes → ¬ l'.nodes ⊂ l.nodes := by
  have hv : c.view.Linked := hc.linked
  have hnatural : ∀ {l}, l ∈ c.loopForest.loops → c.view.Natural c.dominators l :=
    View.natural_of_mem
  refine ⟨fun a h hedge hdom => ?_, fun l hl => ⟨?_, fun a h hback => ?_⟩, ?_,
    c.view.precedes_loops c.dominators, fun l hl => ?_, fun l hl => View.depth_eq_ncard hl,
    fun n => ?_⟩
  · have hlatch : a ∈ c.view.latches c.dominators h :=
      View.mem_latches.2 ⟨hv.source_lt hedge, hedge, hdom⟩
    obtain ⟨l, hl, hheader, ha⟩ := View.exists_loop (hv.target_lt hedge) hlatch
    refine ⟨l, ⟨hl, NaturalLoop.mem_backEdges.2 ⟨ha, hheader.symm⟩⟩, ?_⟩
    rintro l' ⟨hl', hback⟩
    obtain ⟨ha', hheader'⟩ := NaturalLoop.mem_backEdges.1 hback
    have hbody := ((hnatural hl).mem_latches.1 ha).2
    have hbody' := ((hnatural hl').mem_latches.1 ha').2
    refine View.eq_of_same hl' hl (hheader'.symm.trans hheader.symm) ?_
    rw [← hbody, ← hbody', hheader, hheader']
  · intro hnil
    have hmap := l.map_fst_backEdges
    rw [hnil] at hmap
    exact (hnatural hl).nonempty hmap.symm
  · obtain ⟨ha, rfl⟩ := NaturalLoop.mem_backEdges.1 hback
    obtain ⟨hlatch, hbody⟩ := (hnatural hl).mem_latches.1 ha
    obtain ⟨-, hedge, hdom⟩ := View.mem_latches.1 hlatch
    exact ⟨hedge, hdom, rfl, hbody.symm⟩
  · refine (c.view.pairwise_loops c.dominators).imp_of_mem fun {l l'} hl hl' hll' hheader => ?_
    rcases hll' with hlt | ⟨-, hne, -⟩
    · exact absurd hheader (Nat.ne_of_lt hlt)
    · rwa [ne_eq, NaturalLoop.nodes_inj]
      rw [(hnatural hl).capacity_body, (hnatural hl').capacity_body]
  · rw [l.map_fst_backEdges]
    exact (hnatural hl).ascends_latches
  · rcases c.loopForest.innermost?_spec n with ⟨hnone, hnot⟩ | ⟨l, hl, hsome, hn, hdeepest⟩
    · rw [hnone]
      exact ⟨⟨fun _ => hnot, fun _ => rfl⟩, fun l hl => absurd hl (by simp)⟩
    · rw [hsome]
      refine ⟨⟨fun h => absurd h (by simp), fun h => absurd hn (h l hl)⟩, fun l' hl' => ?_⟩
      cases hl'
      refine ⟨hl, hn, fun l' hl' hn' hinside => ?_⟩
      exact Nat.not_lt.2 (hdeepest l' hl' hn') (View.depth_lt_of_ssubset hl' hl hinside)

/-- A loop that goes back from either arm of a branch. -/
def forkedBack : List Instruction :=
  [⟨0, .branch .conditional 3⟩, ⟨1, .nop⟩, ⟨2, .branch .unconditional 0⟩,
    ⟨3, .branch .conditional 0⟩, ⟨4, .return none⟩]

/-- The two loops share the header, node 2, and neither is inside the other;
the header still has an innermost loop. -/
theorem loopForest_exact_forkedBack :
    ∃ c, build none forkedBack [] .default = .ok c ∧ c.graph.Built ∧
      c.loopForest.loops.map NaturalLoop.latches = [[3], [4]] ∧
      (∃! l, l ∈ c.loopForest.loops ∧ (4, 2) ∈ l.backEdges) ∧
      ∃ l ∈ c.loopForest.loops, c.loopForest.innermost? 2 = some l ∧ 2 ∈ l.nodes ∧
        ∀ l' ∈ c.loopForest.loops, 2 ∈ l'.nodes → ¬ l'.nodes ⊂ l.nodes := by
  let c : Cfg := ⟨none, (Layout.of forkedBack []).graph .default⟩
  have hbuild : build none forkedBack [] .default = .ok c := build_eq_ok_iff.2 ⟨by decide, rfl⟩
  have hbuilt : c.graph.Built := (build_wired hbuild).built
  have hlatches : c.loopForest.loops.map NaturalLoop.latches = [[3], [4]] := by decide +kernel
  obtain ⟨hunique, -, -, -, -, -, hinnermost⟩ := loopForest_exact hbuilt
  obtain ⟨l, hl⟩ : ∃ l, c.loopForest.innermost? 2 = some l :=
    Option.isSome_iff_exists.1 (by decide +kernel)
  obtain ⟨hmem, hnode, hleast⟩ := (hinnermost 2).2 l hl
  exact ⟨c, hbuild, hbuilt, hlatches, hunique 4 2 (by decide +kernel) (by decide +kernel), l, hmem,
    hl, hnode, hleast⟩

end Cfg

end MethodFlow
