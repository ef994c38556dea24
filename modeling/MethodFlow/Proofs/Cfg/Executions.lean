import MethodFlow.Cfg.Basic
import MethodFlow.Proofs.Graph.Paths

/-!
# Executions along paths

What a fact says about a program is measured against executions.  A step
relation says what one instruction may do to a state; an execution of a piece
of code chains such steps, and an execution along a path runs the blocks of
the path as a whole, one after the other.

Facts stand at the beginning of a node, so the last node of a path is reached
but not executed: its beginning lies behind the code of the nodes before it,
`path.dropLast.flatMap c.codeOf`.

## Main results

* `Execution.append_iff`: an execution can be cut anywhere.
* `Execution.foldl_iff`: executions without choices are folds.
* `Cfg.arrival_induction`: what holds at the entry and is carried through
  blocks and edges holds wherever an execution arrives.
-/

namespace MethodFlow

variable {S : Type} {step : Instruction → S → S → Prop} {code rest : List Instruction}
  {s t u : S}

/-- `Execution step code s t`: the instructions of `code`, each doing
something that `step` allows, can take the state `s` to `t`. -/
inductive Execution (step : Instruction → S → S → Prop) : List Instruction → S → S → Prop where
  | nil {s : S} : Execution step [] s s
  | cons {i : Instruction} {code : List Instruction} {s t u : S} (hstep : step i s t)
      (hrest : Execution step code t u) : Execution step (i :: code) s u

namespace Execution

theorem eq_of_nil (h : Execution step [] s t) : t = s := by
  cases h
  rfl

/-- An execution of two pieces of code passes a state between them. -/
theorem append_iff :
    Execution step (code ++ rest) s u ↔
      ∃ t, Execution step code s t ∧ Execution step rest t u := by
  induction code generalizing s with
  | nil =>
      refine ⟨fun h => ⟨s, .nil, h⟩, ?_⟩
      rintro ⟨t, hfront, hback⟩
      rw [hfront.eq_of_nil] at hback
      exact hback
  | cons i code ih =>
      constructor
      · intro h
        cases h with
        | cons hstep hrest =>
            obtain ⟨t, hfront, hback⟩ := ih.1 hrest
            exact ⟨t, .cons hstep hfront, hback⟩
      · rintro ⟨t, hfront, hback⟩
        cases hfront with
        | cons hstep hrest => exact .cons hstep (ih.2 ⟨t, hrest, hback⟩)

/-- Where each instruction does one thing only, an execution is a fold. -/
theorem foldl_iff {f : S → Instruction → S} :
    Execution (fun i s t => t = f s i) code s t ↔ t = code.foldl f s := by
  induction code generalizing s with
  | nil =>
      refine ⟨eq_of_nil, ?_⟩
      rintro rfl
      exact .nil
  | cons i code ih =>
      constructor
      · intro h
        cases h with
        | cons hstep hrest =>
            subst hstep
            exact ih.1 hrest
      · exact fun h => .cons rfl (ih.2 h)

end Execution

/-- The last node of a path is the one that it leads to. -/
theorem View.Path.dropLast_concat {v : View} {a b : NodeId} {path : List NodeId}
    (h : v.Path a b path) : path.dropLast ++ [b] = path := by
  cases h with
  | start => rfl
  | step _ _ => rw [List.dropLast_concat]

namespace Cfg

variable {c : Cfg} {n : NodeId} {path : List NodeId} {start : S}

/-- **Executions along paths.**  A property of the executed nodes, the node
where control arrives and the state there holds at the end of every execution
along a path, if it holds at the entry and a block followed by an edge
preserves it. -/
theorem arrival_induction {P : List NodeId → NodeId → S → Prop} (hentry : P [] entry start)
    (hnext : ∀ front m n s t, P front m s → Execution step (c.codeOf m) s t →
      n ∈ c.view.succ m → P (front ++ [m]) n t)
    (hpath : c.view.Path entry n path)
    (hrun : Execution step (path.dropLast.flatMap c.codeOf) start s) :
    P path.dropLast n s := by
  induction hpath generalizing s with
  | start =>
      rw [hrun.eq_of_nil]
      exact hentry
  | @step m n path hpath hedge ih =>
      rw [List.dropLast_concat] at hrun ⊢
      rw [← hpath.dropLast_concat, List.flatMap_append, List.flatMap_singleton] at hrun
      obtain ⟨t, hfront, hblock⟩ := Execution.append_iff.1 hrun
      rw [← hpath.dropLast_concat]
      exact hnext _ m n t s (ih hfront) hblock hedge

end Cfg

end MethodFlow
