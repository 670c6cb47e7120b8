import FlowAnalysis.BitSet
import FlowAnalysis.Digraph

/-!
Depth-first search and reachability. A search looks at the successors of a node in order, reports
each edge before it follows it, goes on at once from a target that it has not seen, and finishes a
node after its last successor.
-/
namespace FlowAnalysis.Digraph

variable {N E : Type}

inductive Event
  | edge (source target : Nat)
  | finish (node : Nat)
  deriving DecidableEq

/-- A node under search and the successors that it has still to look at. -/
structure Frame where
  node : Nat
  pending : List Nat

/-- The steps that a stack takes if it grows no more. -/
def load (stack : List Frame) : Nat := stack.foldr (fun f k => f.pending.length + 1 + k) 0

/-- The events of a search that has `seen` some nodes and is at the first frame of its stack. -/
def search (g : Digraph N E) (seen : BitSet) (stack : List Frame) : List Event :=
  match stack with
  | [] => []
  | ⟨n, []⟩ :: rest => .finish n :: g.search seen rest
  | ⟨n, m :: ms⟩ :: rest =>
    .edge n m ::
      if _ : seen.lacks m then
        g.search (seen.add m) (⟨m, g.successors m⟩ :: ⟨n, ms⟩ :: rest)
      else g.search seen (⟨n, ms⟩ :: rest)
termination_by (seen.room, load stack)
decreasing_by
  · exact Prod.Lex.right _ (by simp [load])
  · exact Prod.Lex.left _ _ (BitSet.room_add_lt ‹_›)
  · exact Prod.Lex.right _ (by simp [load])

/-- The events of the search from `start`; none if there is no such node. -/
def events (g : Digraph N E) (start : Nat) : List Event :=
  if start < g.nodeCount then
    g.search ((BitSet.empty g.nodeCount).add start) [⟨start, g.successors start⟩]
  else []

/-- The edges in the order of their report. -/
def searchEdges (g : Digraph N E) (start : Nat) : List (Nat × Nat) :=
  (g.events start).filterMap fun
    | .edge s t => some (s, t)
    | .finish _ => none

/-- The nodes in the order in which they finish. -/
def postorder (g : Digraph N E) (start : Nat) : List Nat :=
  (g.events start).filterMap fun
    | .edge _ _ => none
    | .finish n => some n

def reversePostorder (g : Digraph N E) (start : Nat) : List Nat := (g.postorder start).reverse

/-- The nodes that a search from `start` finishes. -/
def reachableFrom (g : Digraph N E) (start : Nat) : BitSet :=
  (g.postorder start).foldl BitSet.add (.empty g.nodeCount)

/-- What is reached already, the nodes of `work`, and all that lead to them by nodes not reached
before. -/
def closeBackwards (g : Digraph N E) (reached : BitSet) (work : List Nat) : BitSet :=
  match work with
  | [] => reached
  | n :: rest =>
    if _ : reached.lacks n then g.closeBackwards (reached.add n) (g.predecessors n ++ rest)
    else g.closeBackwards reached rest
termination_by (reached.room, work.length)
decreasing_by
  · exact Prod.Lex.left _ _ (BitSet.room_add_lt ‹_›)
  · exact Prod.Lex.right _ (by simp)

/-- The nodes from which `target` can be reached. -/
def reachingTo (g : Digraph N E) (target : Nat) : BitSet :=
  g.closeBackwards (.empty g.nodeCount) [target]

end FlowAnalysis.Digraph
