import FlowAnalysis.FlowGraph

/-!
The direction in which facts flow through a graph: with control from the entry, or against it from
the exit. Only nodes in reach of that end take part; all others are idle.
-/
namespace FlowAnalysis

inductive Direction
  | forward | backward
  deriving DecidableEq

namespace FlowGraph

/-- The nodes from which facts flow to `n`, an edge at a time. -/
def sources (g : FlowGraph) : Direction → Nat → List Nat
  | .forward, n => g.predecessors n
  | .backward, n => g.successors n

/-- Where facts start to flow. -/
def boundaryNode (g : FlowGraph) : Direction → Nat
  | .forward => g.entry
  | .backward => g.exit

/-- The nodes that facts can reach. -/
def participants (g : FlowGraph) : Direction → BitSet
  | .forward => g.reachable
  | .backward => g.reachesExit

/-- The order in which most sources of a node come before it. -/
def walk (g : FlowGraph) : Direction → List Nat
  | .forward => g.reversePostorder
  | .backward => g.postorder

/-- Every participant once: in the order of the walk, then those that the walk misses. -/
def visitOrder (g : FlowGraph) (d : Direction) : List Nat :=
  let present := g.participants d
  ((g.walk d ++ g.nodeIds).filter (· ∈ present)).eraseDups

/-- The nodes that take no part. -/
def idleNodes (g : FlowGraph) (d : Direction) : List Nat :=
  let present := g.participants d
  g.nodeIds.filter (· ∉ present)

end FlowGraph
end FlowAnalysis
