import MethodFlow.Graph.Search

/-!
# What a closed worklist holds

`explore` is a depth-first search that crosses a candidate off before it
follows it.  Crossing off loses nothing: whatever could be reached through
the candidate can be reached from what it leads to.  So the search finds
exactly the candidates that `ReachIn` relates to the worklist, each once,
and each after something that leads to it.

## Main results

* `mem_explore`: the search finds what can be reached, and nothing else.
* `nodup_explore`: it finds nothing twice.
* `explore_origin`: whatever it finds was on the worklist, or something
  found earlier leads to it.
-/

namespace MethodFlow

universe u

variable {α : Type u} [DecidableEq α] {next : α → List α}

/-- `a` can be reached from `work` by `next` without leaving `pending`. -/
inductive ReachIn (next : α → List α) (pending work : List α) : α → Prop where
  | root {a : α} (hpending : a ∈ pending) (hwork : a ∈ work) :
      ReachIn next pending work a
  | step {a b : α} (hreach : ReachIn next pending work a)
      (hpending : b ∈ pending) (hnext : b ∈ next a) :
      ReachIn next pending work b

omit [DecidableEq α] in
theorem ReachIn.mem_pending {pending work : List α} {a : α}
    (h : ReachIn next pending work a) : a ∈ pending := by
  cases h with
  | root hpending _ => exact hpending
  | step _ hpending _ => exact hpending

theorem explore_nil (next : α → List α) (pending : List α) : explore next pending [] = [] := by
  rw [explore]
  rfl

/-- A candidate at the head of the worklist comes first, with what it leads to
in its place. -/
theorem explore_cons_of_mem {pending : List α} {a : α} (h : a ∈ pending) (rest : List α) :
    explore next pending (a :: rest) =
      a :: explore next (pending.erase a) (next a ++ rest) := by
  have hskip : skipTo pending (a :: rest) = a :: rest :=
    List.dropWhile_cons_of_neg (by simpa using h)
  rw [explore]
  split
  · next hnil => cases hskip.symm.trans hnil
  · next b rest' hcons =>
    cases hskip.symm.trans hcons
    rfl

/-- What is no candidate is passed over. -/
theorem explore_cons_of_not_mem {pending : List α} {a : α} (h : a ∉ pending) (rest : List α) :
    explore next pending (a :: rest) = explore next pending rest := by
  have hskip : skipTo pending (a :: rest) = skipTo pending rest :=
    List.dropWhile_cons_of_pos (by simpa using h)
  rw [explore, explore, hskip]

theorem mem_work_of_mem_skipTo {pending work : List α} {a : α}
    (h : a ∈ skipTo pending work) : a ∈ work :=
  (List.dropWhile_sublist _).subset h

theorem mem_skipTo {pending work : List α} {a : α}
    (hpending : a ∈ pending) (hwork : a ∈ work) : a ∈ skipTo pending work := by
  induction work with
  | nil => exact absurd hwork (by simp)
  | cons b rest ih =>
      unfold skipTo
      by_cases hb : b ∈ pending
      · rw [List.dropWhile_cons_of_neg (by simpa using hb)]
        exact hwork
      · rw [List.dropWhile_cons_of_pos (by simpa using hb)]
        rcases List.mem_cons.1 hwork with rfl | hrest
        · exact absurd hpending hb
        · exact ih hrest

/-- Crossing off the first candidate and putting what it leads to in its
place changes nothing but the candidate itself. -/
private theorem reachIn_cross_off {pending work rest : List α} {a : α}
    (hskip : skipTo pending work = a :: rest) (b : α) :
    ReachIn next pending work b ↔
      b = a ∨ ReachIn next (pending.erase a) (next a ++ rest) b := by
  have ha : ReachIn next pending work a :=
    .root (mem_pending_of_skipTo hskip)
      (mem_work_of_mem_skipTo (by rw [hskip]; exact List.mem_cons_self))
  constructor
  · intro h
    induction h with
    | @root b hpending hwork =>
        by_cases hb : b = a
        · exact .inl hb
        · have hmem := mem_skipTo hpending hwork
          rw [hskip] at hmem
          have hrest := (List.mem_cons.1 hmem).resolve_left hb
          exact .inr (.root ((List.mem_erase_of_ne hb).2 hpending)
            (List.mem_append_right _ hrest))
    | @step c b _ hpending hnext ih =>
        by_cases hb : b = a
        · exact .inl hb
        · have herase := (List.mem_erase_of_ne hb).2 hpending
          rcases ih with rfl | hc
          · exact .inr (.root herase (List.mem_append_left _ hnext))
          · exact .inr (.step hc herase hnext)
  · rintro (rfl | h)
    · exact ha
    · induction h with
      | root hpending hwork =>
          have hmem := List.mem_of_mem_erase hpending
          rcases List.mem_append.1 hwork with hnext | hrest
          · exact .step ha hmem hnext
          · have hlist := List.mem_cons_of_mem a hrest
            rw [← hskip] at hlist
            exact .root hmem (mem_work_of_mem_skipTo hlist)
      | step _ hpending hnext ih =>
          exact .step ih (List.mem_of_mem_erase hpending) hnext

/-- The search finds exactly what can be reached. -/
theorem mem_explore {pending work : List α} {b : α} :
    b ∈ explore next pending work ↔ ReachIn next pending work b := by
  fun_induction explore next pending work with
  | case1 pending work hskip =>
      refine ⟨fun h => absurd h (by simp), fun h => ?_⟩
      induction h with
      | root hpending hwork =>
          have hmem := mem_skipTo hpending hwork
          rw [hskip] at hmem
          exact hmem
      | step _ _ _ ih => exact absurd ih (by simp)
  | case2 pending work a rest hskip ih =>
      rw [List.mem_cons, ih, reachIn_cross_off hskip]

/-- The search finds nothing twice. -/
theorem nodup_explore {pending work : List α} (h : pending.Nodup) :
    (explore next pending work).Nodup := by
  fun_induction explore next pending work with
  | case1 pending work hskip => exact List.nodup_nil
  | case2 pending work a rest hskip ih =>
      refine List.nodup_cons.2 ⟨fun ha => ?_, ih (h.erase a)⟩
      exact h.not_mem_erase (mem_explore.1 ha).mem_pending

/-- Whatever the search finds was on the worklist, or something found
earlier leads to it. -/
theorem explore_origin {pending work before after : List α} {b : α}
    (h : explore next pending work = before ++ b :: after) :
    b ∈ work ∨ ∃ a ∈ before, b ∈ next a := by
  fun_induction explore next pending work generalizing before with
  | case1 pending work hskip => exact absurd h (by simp)
  | case2 pending work a rest hskip ih =>
      have hsuffix : ∀ c ∈ a :: rest, c ∈ work := by
        intro c hc
        rw [← hskip] at hc
        exact mem_work_of_mem_skipTo hc
      cases before with
      | nil =>
          rw [List.nil_append, List.cons.injEq] at h
          exact .inl (hsuffix b (h.1 ▸ List.mem_cons_self))
      | cons c before =>
          rw [List.cons_append, List.cons.injEq] at h
          obtain ⟨rfl, htail⟩ := h
          rcases ih htail with hwork | ⟨e, he, hnext⟩
          · rcases List.mem_append.1 hwork with hnext | hrest
            · exact .inr ⟨a, List.mem_cons_self, hnext⟩
            · exact .inl (hsuffix b (List.mem_cons_of_mem _ hrest))
          · exact .inr ⟨e, List.mem_cons_of_mem _ he, hnext⟩

end MethodFlow
