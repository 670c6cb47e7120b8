import FlowAnalysis.Analysis

/-!
Live variables: those that some path from a point reads before it assigns them. An assignment
reads its expression before it assigns.
-/
namespace FlowAnalysis

/-- The variables that the node reads, ascending. -/
def Node.uses (n : Node) : List Variable := (n.expr?.map Expr.variables).getD []

/-- The variables read or assigned anywhere, ascending. -/
def FlowGraph.variables (g : FlowGraph) : List Variable :=
  Variable.ascending (g.nodes.flatMap fun n => n.assigned?.toList ++ n.uses)

def FlowGraph.liveVariables (g : FlowGraph) : Analysis Variable where
  direction := .backward
  confluence := .union
  facts := g.variables
  gen := g.nodes.map Node.uses
  kill := g.nodes.map (·.assigned?.toList)

end FlowAnalysis
