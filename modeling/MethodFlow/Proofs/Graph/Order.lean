import Mathlib.Data.List.Induction
import MethodFlow.Graph.Order
import MethodFlow.Proofs.Graph.Paths

/-!
# Depth-first orders

A search keeps its nodes in one line: those being visited, the outermost
first, and behind them those already left.  Leaving a node moves the border
between the two parts but not the line, and visiting a node puts it into the
line right behind the node that leads to it.  So in the finished order every
node other than a root stands behind some node that leads to it, and what is
searched later stands in front of what is searched earlier.

## Main results

* `walk_keeps`, `View.foldl_visit_keeps`: what a step of a search keeps, and
  what the visit of a root keeps, the whole search keeps.
* `View.mem_reversePostorder`: the order lists what the roots reach.
* `View.perm_topologicalOrder`: the topological order lists every node once.
* `View.exists_leader`: a node that the first roots of the topological order
  reach is one of them, or stands behind a node that leads to it and that
  they reach too.
-/

namespace MethodFlow

variable {next : NodeId → List NodeId} {nodes roots unvisited finished line : List NodeId}
  {stack below : List Frame}

/-! ## The line of a search -/

/-- Every node of the line is a root or stands behind one that leads to it. -/
def Led (next : NodeId → List NodeId) (roots line : List NodeId) : Prop :=
  ∀ n ∈ line, n ∈ roots ∨ ∃ p, n ∈ next p ∧ [p, n].Sublist line

/-- A node put into the line behind one that leads to it. -/
private theorem Led.insert {front back : List NodeId} {p n : NodeId}
    (h : Led next roots (front ++ back)) (hp : p ∈ front) (hn : n ∈ next p) :
    Led next roots (front ++ n :: back) := by
  intro m hm
  have hgrown : (front ++ back).Sublist (front ++ n :: back) :=
    (List.sublist_cons_self n back).append_left front
  have hcases : m = n ∨ m ∈ front ++ back := by
    simp only [List.mem_append, List.mem_cons] at hm ⊢
    rcases hm with hm | hm | hm
    · exact .inr (.inl hm)
    · exact .inl hm
    · exact .inr (.inr hm)
  rcases hcases with rfl | hm
  · refine .inr ⟨p, hn, ?_⟩
    exact (List.singleton_sublist.2 hp).append
      (List.singleton_sublist.2 List.mem_cons_self)
  · rcases h m hm with hroot | ⟨q, hq, hsub⟩
    · exact .inl hroot
    · exact .inr ⟨q, hq, hsub.trans hgrown⟩

/-- A root put in front of the line. -/
private theorem Led.cons_root (h : Led next roots line) (r : NodeId) :
    Led next (roots ++ [r]) (r :: line) := by
  intro n hn
  rcases List.mem_cons.1 hn with rfl | hn
  · exact .inl (List.mem_append_right _ (List.mem_singleton_self n))
  · rcases h n hn with hroot | ⟨p, hp, hsub⟩
    · exact .inl (List.mem_append_left _ hroot)
    · exact .inr ⟨p, hp, hsub.cons r⟩

/-- In a line without repetitions, what stands before a node is in front of
it. -/
theorem mem_front_of_sublist {front back : List NodeId} {p n : NodeId}
    (hnodup : (front ++ n :: back).Nodup) (h : [p, n].Sublist (front ++ n :: back)) :
    p ∈ front := by
  have hback : n ∉ back :=
    (List.nodup_cons.1 (List.nodup_append.1 hnodup).2.1).1
  obtain ⟨l₁, l₂, hl, h₁, h₂⟩ := List.sublist_append_iff.1 h
  cases l₁ with
  | cons q rest =>
      rw [List.cons_append, List.cons.injEq] at hl
      rw [hl.1]
      exact h₁.subset List.mem_cons_self
  | nil =>
      -- Both would stand in `n :: back`, so the second one would repeat `n`.
      rw [List.nil_append] at hl
      rw [← hl] at h₂
      cases h₂ with
      | cons _ hsub => exact absurd (hsub.subset (by simp)) hback
      | cons_cons _ hsub => exact absurd (hsub.subset (by simp)) hback

/-- The nodes being visited, the outermost first, and then those left. -/
def lineOf (stack : List Frame) (finished : List NodeId) : List NodeId :=
  (stack.map Frame.node).reverse ++ finished

theorem lineOf_leave (f : Frame) (below : List Frame) (finished : List NodeId) :
    lineOf below (f.node :: finished) = lineOf (f :: below) finished := by
  simp [lineOf]

/-! ## What a search keeps -/

/-- A search under way: every node is unvisited or in the line, the line is
led, and successors are overlooked only when they have been visited. -/
structure Walking (next : NodeId → List NodeId) (nodes roots unvisited : List NodeId)
    (stack : List Frame) (finished : List NodeId) : Prop where
  perm : (unvisited ++ lineOf stack finished).Perm nodes
  led : Led next roots (lineOf stack finished)
  untried : ∀ f ∈ stack, ∀ n ∈ f.untried, n ∈ next f.node
  pending : ∀ f ∈ stack, ∀ n ∈ next f.node, n ∈ unvisited → n ∈ f.untried
  closed : ∀ m ∈ finished, ∀ n ∈ next m, n ∉ unvisited

/-- Leaving a node whose successors are used up. -/
theorem Walking.leave {f : Frame}
    (h : Walking next nodes roots unvisited (f :: below) finished)
    (hskip : skipTo unvisited f.untried = []) :
    Walking next nodes roots unvisited below (f.node :: finished) where
  perm := by rw [lineOf_leave]; exact h.perm
  led := by rw [lineOf_leave]; exact h.led
  untried g hg := h.untried g (List.mem_cons_of_mem _ hg)
  pending g hg := h.pending g (List.mem_cons_of_mem _ hg)
  closed := by
    intro m hm n hn hunvisited
    rcases List.mem_cons.1 hm with rfl | hm
    · have hmem := mem_skipTo hunvisited (h.pending f List.mem_cons_self n hn hunvisited)
      rw [hskip] at hmem
      exact absurd hmem List.not_mem_nil
    · exact h.closed m hm n hn hunvisited

/-- Visiting the next successor of the innermost node. -/
theorem Walking.enter {f : Frame} {s : NodeId} {rest : List NodeId}
    (h : Walking next nodes roots unvisited (f :: below) finished) (hnodes : nodes.Nodup)
    (hskip : skipTo unvisited f.untried = s :: rest) :
    Walking next nodes roots (unvisited.erase s) (⟨s, next s⟩ :: ⟨f.node, rest⟩ :: below)
      finished := by
  have hs : s ∈ unvisited := mem_pending_of_skipTo hskip
  have hnodup : unvisited.Nodup := (List.nodup_append.1 (h.perm.nodup_iff.2 hnodes)).1
  have htried : ∀ n ∈ s :: rest, n ∈ next f.node := by
    intro n hn
    rw [← hskip] at hn
    exact h.untried f List.mem_cons_self n (mem_work_of_mem_skipTo hn)
  have hline : lineOf (⟨s, next s⟩ :: ⟨f.node, rest⟩ :: below) finished =
      ((f :: below).map Frame.node).reverse ++ s :: finished := by
    simp [lineOf]
  have hstep : ∀ n ∈ next f.node, n ∈ unvisited.erase s → n ∈ rest := by
    intro n hn hunvisited
    have hne : n ≠ s := (hnodup.mem_erase_iff.1 hunvisited).1
    have hold := (hnodup.mem_erase_iff.1 hunvisited).2
    have hmem := mem_skipTo hold (h.pending f List.mem_cons_self n hn hold)
    rw [hskip] at hmem
    exact (List.mem_cons.1 hmem).resolve_left hne
  refine ⟨?_, ?_, ?_, ?_, ?_⟩
  · rw [hline]
    refine List.Perm.trans ?_ h.perm
    have hmoved : (((f :: below).map Frame.node).reverse ++ s :: finished).Perm
        (s :: lineOf (f :: below) finished) := List.perm_middle
    refine (hmoved.append_left _).trans (List.perm_middle.trans ?_)
    exact (List.perm_cons_erase hs).symm.append_right _
  · rw [hline]
    exact h.led.insert (by simp) (htried s List.mem_cons_self)
  · intro g hg n hn
    rcases List.mem_cons.1 hg with rfl | hg
    · exact hn
    rcases List.mem_cons.1 hg with rfl | hg
    · exact htried n (List.mem_cons_of_mem _ hn)
    · exact h.untried g (List.mem_cons_of_mem _ hg) n hn
  · intro g hg n hn hunvisited
    rcases List.mem_cons.1 hg with rfl | hg
    · exact hn
    rcases List.mem_cons.1 hg with rfl | hg
    · exact hstep n hn hunvisited
    · exact h.pending g (List.mem_cons_of_mem _ hg) n hn (List.mem_of_mem_erase hunvisited)
  · intro m hm n hn hunvisited
    exact h.closed m hm n hn (List.mem_of_mem_erase hunvisited)

/-- What leaving a node and visiting the next one keep, unwinding keeps. -/
private theorem unwind_keeps {P : List NodeId → List Frame → List NodeId → Prop}
    (hleave : ∀ {unvisited f below finished}, P unvisited (f :: below) finished →
      skipTo unvisited f.untried = [] → P unvisited below (f.node :: finished))
    (henter : ∀ {unvisited f below finished s rest}, P unvisited (f :: below) finished →
      skipTo unvisited f.untried = s :: rest →
      P (unvisited.erase s) (⟨s, next s⟩ :: ⟨f.node, rest⟩ :: below) finished)
    (h : P unvisited stack finished) :
    ((unwind unvisited stack finished).1 = none →
      P unvisited [] (unwind unvisited stack finished).2) ∧
    ∀ s stack', (unwind unvisited stack finished).1 = some (s, stack') →
      P (unvisited.erase s) (⟨s, next s⟩ :: stack') (unwind unvisited stack finished).2 := by
  induction stack generalizing finished with
  | nil => exact ⟨fun _ => h, fun s stack' hsome => by simp [unwind] at hsome⟩
  | cons f below ih =>
      cases hskip : skipTo unvisited f.untried with
      | nil =>
          simp only [unwind, hskip]
          exact ih (hleave h hskip)
      | cons s rest =>
          have hnext : unwind unvisited (f :: below) finished =
              (some (s, ⟨f.node, rest⟩ :: below), finished) := by
            simp only [unwind, hskip]
          rw [hnext]
          refine ⟨fun hnone => absurd hnone (by simp), fun s' stack' hsome => ?_⟩
          cases hsome
          exact henter h hskip

/-- What leaving a node and visiting the next one keep, a search that has run
its course keeps. -/
theorem walk_keeps {P : List NodeId → List Frame → List NodeId → Prop}
    (hleave : ∀ {unvisited f below finished}, P unvisited (f :: below) finished →
      skipTo unvisited f.untried = [] → P unvisited below (f.node :: finished))
    (henter : ∀ {unvisited f below finished s rest}, P unvisited (f :: below) finished →
      skipTo unvisited f.untried = s :: rest →
      P (unvisited.erase s) (⟨s, next s⟩ :: ⟨f.node, rest⟩ :: below) finished)
    (h : P unvisited stack finished) :
    P (walk next unvisited stack finished).unvisited []
      (walk next unvisited stack finished).finished := by
  fun_induction walk next unvisited stack finished with
  | case1 unvisited stack finished hnone => exact (unwind_keeps hleave henter h).1 hnone
  | case2 unvisited stack finished s stack' hsome ih =>
      exact ih ((unwind_keeps hleave henter h).2 s stack' hsome)

private theorem mem_unvisited_of_walk {n : NodeId}
    (h : n ∈ (walk next unvisited stack finished).unvisited) : n ∈ unvisited := by
  fun_induction walk next unvisited stack finished with
  | case1 unvisited stack finished hnone => exact h
  | case2 unvisited stack finished s stack' hsome ih => exact List.mem_of_mem_erase (ih h)

private theorem suffix_unwind (unvisited : List NodeId) (stack : List Frame)
    (finished : List NodeId) : finished <:+ (unwind unvisited stack finished).2 := by
  induction stack generalizing finished with
  | nil => exact List.suffix_refl _
  | cons f below ih =>
      simp only [unwind]
      split
      · exact (List.suffix_cons _ _).trans (ih _)
      · exact List.suffix_refl _

private theorem suffix_walk (next : NodeId → List NodeId) (unvisited : List NodeId)
    (stack : List Frame) (finished : List NodeId) :
    finished <:+ (walk next unvisited stack finished).finished := by
  fun_induction walk next unvisited stack finished with
  | case1 unvisited stack finished hnone => exact suffix_unwind _ _ _
  | case2 unvisited stack finished s stack' hsome ih => exact (suffix_unwind _ _ _).trans ih

/-! ## Root after root -/

namespace View

variable {v : View} {t : Traversal} {n p r : NodeId} {rest : List NodeId}

/-- A search between two roots: nothing is being visited, and the roots so
far have been. -/
structure Searched (v : View) (roots : List NodeId) (t : Traversal) : Prop where
  walking : Walking v.succ v.nodes roots t.unvisited [] t.finished
  visited : ∀ r ∈ roots, r ∉ t.unvisited

private theorem Searched.nodup (h : v.Searched roots t) : (t.unvisited ++ t.finished).Nodup :=
  h.walking.perm.nodup_iff.2 List.nodup_range

/-- Visiting a root begins with nothing else being visited. -/
theorem Searched.start (h : v.Searched roots t) (hr : r ∈ t.unvisited) :
    Walking v.succ v.nodes (roots ++ [r]) (t.unvisited.erase r) [⟨r, v.succ r⟩] t.finished := by
  refine ⟨?_, h.walking.led.cons_root r, by simp, by simp +contextual, ?_⟩
  · refine List.Perm.trans ?_ h.walking.perm
    refine List.perm_middle.trans ?_
    exact (List.perm_cons_erase hr).symm.append_right _
  · intro m hm n hn hunvisited
    exact h.walking.closed m hm n hn (List.mem_of_mem_erase hunvisited)

/-- Visiting one more root. -/
private theorem Searched.visit (h : v.Searched roots t) (r : NodeId) :
    v.Searched (roots ++ [r]) (t.visit v.succ r) := by
  unfold Traversal.visit
  split
  · next hr =>
    have hdone := walk_keeps Walking.leave (fun h hskip => h.enter List.nodup_range hskip)
      (h.start hr)
    refine ⟨hdone, fun s hs hunvisited => ?_⟩
    have hleft := mem_unvisited_of_walk hunvisited
    have hnodup : t.unvisited.Nodup := (List.nodup_append.1 h.nodup).1
    rcases List.mem_append.1 hs with hs | hs
    · exact h.visited s hs (List.mem_of_mem_erase hleft)
    · rw [List.mem_singleton.1 hs] at hleft
      exact hnodup.not_mem_erase hleft
  · next hr =>
    refine ⟨⟨h.walking.perm, fun n hn => ?_, by simp, by simp, h.walking.closed⟩, ?_⟩
    · exact (h.walking.led n hn).imp_left (List.mem_append_left _)
    · intro s hs
      rcases List.mem_append.1 hs with hs | hs
      · exact h.visited s hs
      · rw [List.mem_singleton.1 hs]
        exact hr

private theorem Searched.foldl (h : v.Searched roots t) (rest : List NodeId) :
    v.Searched (roots ++ rest) (rest.foldl (Traversal.visit v.succ) t) := by
  induction rest generalizing roots t with
  | nil => rwa [List.append_nil]
  | cons r rest ih =>
      have hnext := ih (h.visit r)
      rwa [List.append_assoc, List.singleton_append] at hnext

private theorem searched (v : View) (roots : List NodeId) :
    v.Searched roots (roots.foldl (Traversal.visit v.succ) ⟨v.nodes, []⟩) := by
  have hstart : v.Searched [] ⟨v.nodes, []⟩ := by
    refine ⟨⟨?_, ?_, ?_, ?_, ?_⟩, ?_⟩ <;> simp [lineOf, Led]
  exact hstart.foldl roots

/-- What the visit of one more root keeps, the search from any roots keeps. -/
theorem foldl_visit_keeps {P : Traversal → Prop} (hstart : P ⟨v.nodes, []⟩)
    (hvisit : ∀ {roots t r}, v.Searched roots t → P t → P (t.visit v.succ r))
    (roots : List NodeId) : P (roots.foldl (Traversal.visit v.succ) ⟨v.nodes, []⟩) := by
  induction roots using List.reverseRecOn with
  | nil => exact hstart
  | append_singleton roots r ih =>
      rw [List.foldl_append]
      exact hvisit (v.searched roots) ih

theorem nodup_reversePostorder (v : View) (roots : List NodeId) :
    (v.reversePostorder roots).Nodup :=
  (List.nodup_append.1 (v.searched roots).nodup).2.1

private theorem led_reversePostorder (v : View) (roots : List NodeId) :
    Led v.succ roots (v.reversePostorder roots) :=
  (v.searched roots).walking.led

/-- Roots searched later are listed, with what they find, in front. -/
theorem reversePostorder_suffix (v : View) (roots rest : List NodeId) :
    v.reversePostorder roots <:+ v.reversePostorder (roots ++ rest) := by
  unfold reversePostorder
  rw [List.foldl_append]
  generalize roots.foldl (Traversal.visit v.succ) ⟨v.nodes, []⟩ = t
  induction rest generalizing t with
  | nil => exact List.suffix_refl _
  | cons r rest ih =>
      refine List.IsSuffix.trans ?_ (ih _)
      unfold Traversal.visit
      split
      · exact suffix_walk _ _ _ _
      · exact List.suffix_refl _

private theorem mem_reversePostorder_of_root (hr : r ∈ roots) (hsize : r < v.size) :
    r ∈ v.reversePostorder roots := by
  have hsearched := v.searched roots
  have hmem := hsearched.walking.perm.mem_iff.2 (List.mem_range.2 hsize)
  exact (List.mem_append.1 hmem).resolve_left (hsearched.visited r hr)

private theorem mem_reversePostorder_of_edge (hv : v.Linked)
    (hp : p ∈ v.reversePostorder roots) (hedge : n ∈ v.succ p) :
    n ∈ v.reversePostorder roots := by
  have hsearched := v.searched roots
  have hmem := hsearched.walking.perm.mem_iff.2 (List.mem_range.2 (hv.target_lt hedge))
  exact (List.mem_append.1 hmem).resolve_left (hsearched.walking.closed p hp n hedge)

/-- One of the roots reaches the node. -/
def ReachedFrom (v : View) (roots : List NodeId) (n : NodeId) : Prop :=
  ∃ r ∈ roots, r < v.size ∧ v.Reaches r n

/-- The front of the order is reached, node by node: each is a root, or one
in front of it leads to it. -/
private theorem reachedFrom_front (front : List NodeId) :
    ∀ back, v.reversePostorder roots = front ++ back → ∀ n ∈ front, v.ReachedFrom roots n := by
  induction front using List.reverseRecOn with
  | nil => exact fun _ _ n hn => absurd hn List.not_mem_nil
  | append_singleton front m ih =>
      intro back hsplit n hn
      rw [List.append_assoc, List.singleton_append] at hsplit
      have hfront := ih _ hsplit
      rcases List.mem_append.1 hn with hn | hn
      · exact hfront n hn
      rw [List.mem_singleton.1 hn]
      have hmem : m ∈ v.reversePostorder roots := by rw [hsplit]; simp
      rcases led_reversePostorder v roots m hmem with hroot | ⟨p, hp, hsub⟩
      · have hnode := (v.searched roots).walking.perm.mem_iff.1
          (List.mem_append_right _ hmem)
        exact ⟨m, hroot, List.mem_range.1 hnode, .refl v m⟩
      · have hnodup := nodup_reversePostorder v roots
        rw [hsplit] at hsub hnodup
        obtain ⟨r, hr, hsize, hreach⟩ := hfront p (mem_front_of_sublist hnodup hsub)
        exact ⟨r, hr, hsize, hreach.step hp⟩

/-- The order lists exactly what the roots reach. -/
theorem mem_reversePostorder (hv : v.Linked) :
    n ∈ v.reversePostorder roots ↔ v.ReachedFrom roots n := by
  constructor
  · exact fun h => reachedFrom_front (v.reversePostorder roots) [] (by simp) n h
  · rintro ⟨r, hr, hsize, path, hpath⟩
    induction hpath with
    | start => exact mem_reversePostorder_of_root hr hsize
    | step _ hedge ih => exact mem_reversePostorder_of_edge hv ih hedge

/-- The topological order lists every node once. -/
theorem perm_topologicalOrder (v : View) : v.topologicalOrder.Perm v.nodes := by
  have hsearched := v.searched (v.sources ++ v.nodes)
  have hnone : ((v.sources ++ v.nodes).foldl (Traversal.visit v.succ)
      ⟨v.nodes, []⟩).unvisited = [] := by
    refine List.eq_nil_iff_forall_not_mem.2 fun n hn => ?_
    have hnode := hsearched.walking.perm.mem_iff.1 (List.mem_append_left _ hn)
    exact hsearched.visited n (List.mem_append_right _ hnode) hn
  have hperm := hsearched.walking.perm
  rwa [hnone] at hperm

theorem mem_topologicalOrder : n ∈ v.topologicalOrder ↔ n < v.size := by
  rw [v.perm_topologicalOrder.mem_iff]
  exact List.mem_range

/-- **Leaders.**  A node that the first roots of the topological order reach
is one of them, or stands behind a node that leads to it and that they reach
too. -/
theorem exists_leader (hv : v.Linked) (hroots : roots <+: v.sources ++ v.nodes)
    {front back : List NodeId} (hsplit : v.topologicalOrder = front ++ n :: back)
    (hn : v.ReachedFrom roots n) :
    n ∈ roots ∨ ∃ p ∈ front, p ∈ v.pred n ∧ v.ReachedFrom roots p := by
  obtain ⟨rest, hrest⟩ := hroots
  rcases led_reversePostorder v roots n ((mem_reversePostorder hv).2 hn) with
    hroot | ⟨p, hp, hsub⟩
  · exact .inl hroot
  · have hreached : v.ReachedFrom roots p :=
      (mem_reversePostorder hv).1 (hsub.subset (by simp))
    have hwhole : [p, n].Sublist v.topologicalOrder := by
      refine hsub.trans ?_
      rw [topologicalOrder, ← hrest]
      exact (reversePostorder_suffix v roots rest).sublist
    have hnodup : v.topologicalOrder.Nodup := nodup_reversePostorder _ _
    rw [hsplit] at hwhole hnodup
    exact .inr ⟨p, mem_front_of_sublist hnodup hwhole, hv.mem_pred.2 hp, hreached⟩

end View

end MethodFlow
