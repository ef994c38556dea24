/-!
# Closing a worklist

`explore` finds everything that can be reached from a worklist without leaving a finite universe
of candidates.  It is the one search behind reachability, natural loops, iterated frontiers, the
reachable heap, the closure of a class hierarchy and the methods of a call graph.

Each step takes a candidate out of the universe, so the search ends whatever `next` says.
-/

namespace MethodFlow

universe u

variable {α : Type u} [DecidableEq α]

/-- The worklist from its first candidate on. -/
def skipTo (pending work : List α) : List α := work.dropWhile fun a => a ∉ pending

theorem mem_pending_of_skipTo {pending work rest : List α} {a : α}
    (h : skipTo pending work = a :: rest) : a ∈ pending := by
  have ha : (skipTo pending work).head? = some a := by rw [h]; rfl
  have hnot := List.head?_dropWhile_not (fun a => a ∉ pending) work
  rw [skipTo] at ha
  rw [ha] at hnot
  simpa using hnot

theorem length_erase_lt {l : List α} {a : α} (h : a ∈ l) : (l.erase a).length < l.length := by
  rw [List.length_erase_of_mem h]
  exact Nat.sub_lt (List.length_pos_of_mem h) (by decide)

/-- The members of `pending` that can be reached from `work` by `next` through members of
`pending`, each once, in the order in which they are found: depth first, each followed by what it
leads to. -/
def explore (next : α → List α) (pending work : List α) : List α :=
  match _found : skipTo pending work with
  | [] => []
  | a :: rest => a :: explore next (pending.erase a) (next a ++ rest)
termination_by pending.length
decreasing_by exact length_erase_lt (mem_pending_of_skipTo _found)

end MethodFlow
