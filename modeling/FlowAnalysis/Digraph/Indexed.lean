import FlowAnalysis.Digraph

/-!
Graphs whose adjacency lists hold the numbers of edges. Nothing in the type keeps the lists in step
with the edges: an operation that needs a list or an edge that is not there has no outcome.
-/
namespace FlowAnalysis

structure IndexedGraph (N E : Type) where
  nodes : Array N
  edges : Array (Edge E)
  outgoing : Array (List Nat)
  incoming : Array (List Nat)

namespace IndexedGraph

variable {N E α : Type}

def empty : IndexedGraph N E := ⟨#[], #[], #[], #[]⟩

def nodeCount (g : IndexedGraph N E) : Nat := g.nodes.size

def edgeCount (g : IndexedGraph N E) : Nat := g.edges.size

def nodeIds (g : IndexedGraph N E) : List Nat := List.range g.nodeCount

/-- The new node's number, and the graph with it. -/
def addNode (g : IndexedGraph N E) (data : N) : Nat × IndexedGraph N E :=
  (g.nodeCount, { g with
    nodes := g.nodes.push data
    outgoing := g.outgoing.push []
    incoming := g.incoming.push [] })

/-- The first end of an edge that is no node. -/
def missing? (g : IndexedGraph N E) (source target : Nat) : Option DanglingEdge :=
  [(EndPoint.source, source), (EndPoint.target, target)].findSome? fun (endPoint, n) =>
    if n < g.nodeCount then none else some ⟨endPoint, n, g.nodeCount⟩

/-- The list of node `n` gets an edge's number. -/
def enlist (table : Array (List Nat)) (n e : Nat) : Option (Array (List Nat)) :=
  if n < table.size then some (table.modify n (· ++ [e])) else none

/-- The new edge's number, or why there is none, and the graph after that. -/
def addEdge (g : IndexedGraph N E) (source target : Nat) (data : E) :
    Option (Except DanglingEdge Nat × IndexedGraph N E) :=
  match g.missing? source target with
  | some dangling => some (.error dangling, g)
  | none => do
    let outgoing ← enlist g.outgoing source g.edgeCount
    let incoming ← enlist g.incoming target g.edgeCount
    return (.ok g.edgeCount, { g with
      edges := g.edges.push ⟨source, target, data⟩
      outgoing, incoming })

/-- What `read` gives of the edges in the list of node `n`. -/
def lookUp (g : IndexedGraph N E) (table : Array (List Nat)) (read : Edge E → α) (n : Nat) :
    Option (List α) := do
  (← table[n]?).mapM fun e => read <$> g.edges[e]?

def successors (g : IndexedGraph N E) (n : Nat) : Option (List Nat) :=
  g.lookUp g.outgoing (·.target) n

def predecessors (g : IndexedGraph N E) (n : Nat) : Option (List Nat) :=
  g.lookUp g.incoming (·.source) n

/-- Target and data of the edges that leave `n`. -/
def outgoingEdges (g : IndexedGraph N E) (n : Nat) : Option (List (Nat × E)) :=
  g.lookUp g.outgoing (fun e => (e.target, e.data)) n

end IndexedGraph
end FlowAnalysis
