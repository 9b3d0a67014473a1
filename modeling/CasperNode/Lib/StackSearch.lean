import Mathlib

/-!
A search of a graph for one node, from a stack of start nodes and with a list of the nodes
visited: pop a node, skip it if it was visited, stop at the target, and otherwise push the
node's successors. The successors of a node may be unknown (`none`, a failure of the caller),
and the fuel counts the rounds.
-/

namespace StackSearch

variable {α : Type} [DecidableEq α] (succ : α → Option (List α)) (target : α)

/-- The rounds of the search. The head of the stack is its top: successors go on top in the
order they are pushed, so the last one pushed is popped first. -/
def search : Nat → List α → List α → Option Bool
  | 0, _, _ => none
  | _ + 1, _, [] => some false
  | fuel + 1, visited, node :: stack =>
    if node ∈ visited then search fuel visited stack
    else if node = target then some true
    else do
      let next ← succ node
      search fuel (node :: visited) (next.reverse ++ stack)

end StackSearch
