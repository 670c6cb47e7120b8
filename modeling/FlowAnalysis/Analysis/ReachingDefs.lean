import FlowAnalysis.Analysis

/-!
Reaching definitions: the assignments that some path leads to a point with no assignment to the
same variable after them.
-/
namespace FlowAnalysis

/-- The assignment to a variable at a node, with the node's label. -/
structure Definition where
  node : Nat
  label : Label
  target : Variable
  deriving DecidableEq

/-- What node number `i` defines, if it is an assignment. -/
def Node.definition? (n : Node) (i : Nat) : Option Definition :=
  n.assigned?.map fun x => ⟨i, n.label, x⟩

namespace FlowGraph

/-- The assignments of a graph in the order of its nodes. -/
def definitions (g : FlowGraph) : List Definition :=
  g.nodes.zipIdx.filterMap fun (n, i) => n.definition? i

/-- The other assignments to the variable of `d`. -/
def rivals (g : FlowGraph) (d : Definition) : List Definition :=
  g.definitions.filter fun e => e.target == d.target && e != d

def reachingDefs (g : FlowGraph) : Analysis Definition where
  direction := .forward
  confluence := .union
  facts := g.definitions
  gen := g.nodes.zipIdx.map fun (n, i) => (n.definition? i).toList
  kill := g.nodes.zipIdx.map fun (n, i) => (n.definition? i).toList.flatMap g.rivals

/-- The bit of the first assignment under `l`. -/
def definitionIndex? (g : FlowGraph) (l : Label) : Option Nat :=
  g.definitions.findIdx? (·.label == l)

/-- Whether a state holds the first assignment under `l`. -/
def definitionReaches (g : FlowGraph) (s : BitSet) (l : Label) : Bool :=
  match g.definitionIndex? l with
  | some i => i ∈ s
  | none => false

end FlowGraph
end FlowAnalysis
