import MethodFlow.Graph.Search
import MethodFlow.Graph.View

/-!
# Depth-first orders

`walk` is a depth-first search with an explicit stack of nodes that are being visited, each with
the successors still to be tried.  A node is left when its successors are used up.  The nodes not
yet visited are kept in a list, which shrinks with every visit, so the search ends.
-/

namespace MethodFlow

/-- A node being visited and its successors still to be tried. -/
structure Frame where
  node : NodeId
  untried : List NodeId

/-- A search under way: the nodes not yet visited, and the nodes already left, latest first. -/
structure Traversal where
  unvisited : List NodeId
  finished : List NodeId

/-- Leaves nodes until one has a successor to visit; gives that successor and the stack below
it, and the nodes left so far. -/
def unwind (unvisited : List NodeId) :
    List Frame → List NodeId → Option (NodeId × List Frame) × List NodeId
  | [], finished => (none, finished)
  | ⟨n, untried⟩ :: below, finished =>
    match skipTo unvisited untried with
    | [] => unwind unvisited below (n :: finished)
    | s :: rest => (some (s, ⟨n, rest⟩ :: below), finished)

theorem mem_unvisited_of_unwind {unvisited finished : List NodeId} {stack stack' : List Frame}
    {s : NodeId} (h : (unwind unvisited stack finished).1 = some (s, stack')) :
    s ∈ unvisited := by
  induction stack generalizing finished with
  | nil => simp [unwind] at h
  | cons frame below ih =>
    obtain ⟨n, untried⟩ := frame
    simp only [unwind] at h
    split at h
    · exact ih h
    · next heq =>
      simp only [Option.some.injEq, Prod.mk.injEq] at h
      exact h.1 ▸ mem_pending_of_skipTo heq

/-- Runs the search until the stack is empty. -/
def walk (next : NodeId → List NodeId) (unvisited : List NodeId) (stack : List Frame)
    (finished : List NodeId) : Traversal :=
  match _step : (unwind unvisited stack finished).1 with
  | none => ⟨unvisited, (unwind unvisited stack finished).2⟩
  | some (s, stack') =>
    walk next (unvisited.erase s) (⟨s, next s⟩ :: stack') (unwind unvisited stack finished).2
termination_by unvisited.length
decreasing_by exact length_erase_lt (mem_unvisited_of_unwind _step)

/-- Visits a root, unless it has been visited or is no node. -/
def Traversal.visit (next : NodeId → List NodeId) (t : Traversal) (root : NodeId) : Traversal :=
  if root ∈ t.unvisited then
    walk next (t.unvisited.erase root) [⟨root, next root⟩] t.finished
  else t

namespace View

/-- The nodes that the roots reach, each before the nodes that finished earlier than it. -/
def reversePostorder (v : View) (roots : List NodeId) : List NodeId :=
  (roots.foldl (Traversal.visit v.succ) ⟨v.nodes, []⟩).finished

/-- The nodes that the roots reach, in the order in which a depth-first search leaves them. -/
def postorder (v : View) (roots : List NodeId) : List NodeId := (v.reversePostorder roots).reverse

/-- The nodes that no edge reaches. -/
def sources (v : View) : List NodeId := v.nodes.filter fun n => (v.pred n).isEmpty

/-- All nodes, sources first, such that only edges on a cycle lead backwards: the reverse
postorder from the sources and then from the lowest node not yet visited. -/
def topologicalOrder (v : View) : List NodeId := v.reversePostorder (v.sources ++ v.nodes)

end View

end MethodFlow
