import FlowAnalysis.Digraph.Search
import FlowAnalysis.Node

/-!
Control flow graphs: a graph of program points with an entry, and with an exit, which is always a
node of the graph.
-/
namespace FlowAnalysis

structure FlowGraph where
  graph : Digraph Node EdgeKind
  entry : Nat
  exit : Nat
  exit_lt : exit < graph.nodeCount

namespace FlowGraph

/-- A graph with the given entry and exit, if the exit is one of its nodes. -/
def ofDigraph (graph : Digraph Node EdgeKind) (entry exit : Nat) : Except Fault FlowGraph :=
  if h : exit < graph.nodeCount then .ok ⟨graph, entry, exit, h⟩ else .error (.noNode exit)

def nodeCount (g : FlowGraph) : Nat := g.graph.nodeCount

def edgeCount (g : FlowGraph) : Nat := g.graph.edgeCount

def nodeIds (g : FlowGraph) : List Nat := g.graph.nodeIds

def node? (g : FlowGraph) (n : Nat) : Option Node := g.graph.nodes[n]?

def label? (g : FlowGraph) (n : Nat) : Option Label := (g.node? n).map (·.label)

/-- The nodes in the order of their numbers. -/
def nodes (g : FlowGraph) : List Node := g.graph.nodes.toList

/-- The label of every node. -/
def labels (g : FlowGraph) : List Label := g.nodes.map (·.label)

def successors (g : FlowGraph) (n : Nat) : List Nat := g.graph.successors n

def predecessors (g : FlowGraph) (n : Nat) : List Nat := g.graph.predecessors n

/-- An entry that is no node has the exit's label. -/
def entryLabel (g : FlowGraph) : Label := (g.label? g.entry).getD .exit

/-- The labels from which an edge leads to the exit. -/
def exitLabels (g : FlowGraph) : List Label := (g.predecessors g.exit).filterMap g.label?

/-- The node that a label names: the exit for the exit's label, no node for zero, and otherwise the
node at the label's own place, counted from one, or else the first that has the label. -/
def find? (g : FlowGraph) : Label → Option Nat
  | .exit => some g.exit
  | .stmt 0 => none
  | .stmt (n + 1) =>
    if g.label? n = some (.stmt (n + 1)) then some n
    else g.nodeIds.find? fun m => g.label? m == some (.stmt (n + 1))

/-- The edges by label, in the order of a depth-first search from the entry. -/
def edges (g : FlowGraph) : List (Label × Label) :=
  (g.graph.searchEdges g.entry).filterMap fun (s, t) => return (← g.label? s, ← g.label? t)

/-- The edges by label and with their kinds, in the order of their insertion. -/
def edgesWithKind (g : FlowGraph) : List (Label × Label × EdgeKind) :=
  g.graph.edges.toList.filterMap fun e => return (← g.label? e.source, ← g.label? e.target, e.data)

/-- Whether a back edge leads from the node that `a` names to the one that `b` names. -/
def isBackEdge (g : FlowGraph) (a b : Label) : Bool :=
  match g.find? a, g.find? b with
  | some s, some t => (g.graph.outgoingEdges s).any fun (m, k) => m == t && k.isBack
  | _, _ => false

def postorder (g : FlowGraph) : List Nat := g.graph.postorder g.entry

def reversePostorder (g : FlowGraph) : List Nat := g.graph.reversePostorder g.entry

/-- The nodes that the entry reaches. -/
def reachable (g : FlowGraph) : BitSet := g.graph.reachableFrom g.entry

/-- The nodes that reach the exit. -/
def reachesExit (g : FlowGraph) : BitSet := g.graph.reachingTo g.exit

/-- A line for each node: its text and the labels of its successors. -/
def text (g : FlowGraph) : String :=
  String.join <| g.nodeIds.zip g.nodes |>.map fun (n, node) =>
    let targets := (g.successors n).filterMap g.label?
    node.text ++ " -> [" ++ ", ".intercalate (targets.map Label.text) ++ "]\n"

end FlowGraph
end FlowAnalysis
