import FlowAnalysis.Fault

/-!
Directed graphs with data on nodes and edges; parallel edges and self-loops are allowed. Nodes and
edges are numbered from zero in the order of their insertion and never change. Each node keeps the
edges that leave it and those that enter it, in the same order.
-/
namespace FlowAnalysis

structure Edge (E : Type) where
  source : Nat
  target : Nat
  data : E

inductive EndPoint
  | source | target
  deriving DecidableEq

def EndPoint.text : EndPoint → String
  | source => "source"
  | target => "target"

/-- The name of node `n`. -/
def Digraph.nodeText (n : Nat) : String := "n" ++ toString n

/-- The name of edge `e`. -/
def Digraph.edgeText (e : Nat) : String := "e" ++ toString e

/-- The number of a node, with what it numbers. -/
def Digraph.nodeTag (n : Nat) : String := "NodeId(" ++ toString n ++ ")"

/-- The number of an edge, with what it numbers. -/
def Digraph.edgeTag (e : Nat) : String := "EdgeId(" ++ toString e ++ ")"

/-- An edge whose end is no node of a graph of `count` nodes. -/
structure DanglingEdge where
  endPoint : EndPoint
  node : Nat
  count : Nat
  deriving DecidableEq

def DanglingEdge.message (d : DanglingEdge) : String :=
  d.endPoint.text ++ " node " ++ Digraph.nodeText d.node ++ " does not exist in graph with " ++
    toString d.count ++ " nodes"

structure Digraph (N E : Type) where
  nodes : Array N
  edges : Array (Edge E)
  outgoing : Array (Array (Edge E))
  incoming : Array (Array (Edge E))
  valid : ∀ e ∈ edges, e.source < nodes.size ∧ e.target < nodes.size
  size_outgoing : outgoing.size = nodes.size
  size_incoming : incoming.size = nodes.size
  outgoing_eq : ∀ n (h : n < outgoing.size), outgoing[n] = edges.filter (·.source == n)
  incoming_eq : ∀ n (h : n < incoming.size), incoming[n] = edges.filter (·.target == n)

namespace Digraph

variable {N E : Type}

def empty : Digraph N E where
  nodes := #[]
  edges := #[]
  outgoing := #[]
  incoming := #[]
  valid := by simp
  size_outgoing := rfl
  size_incoming := rfl
  outgoing_eq := by simp
  incoming_eq := by simp

def nodeCount (g : Digraph N E) : Nat := g.nodes.size

def edgeCount (g : Digraph N E) : Nat := g.edges.size

def nodeIds (g : Digraph N E) : List Nat := List.range g.nodeCount

/-- The new node's number is the number of nodes before. -/
def addNode (g : Digraph N E) (data : N) : Digraph N E where
  nodes := g.nodes.push data
  edges := g.edges
  outgoing := g.outgoing.push #[]
  incoming := g.incoming.push #[]
  valid := fun e he => by
    have ends := g.valid e he
    simp only [Array.size_push]
    exact ⟨Nat.lt_succ_of_lt ends.1, Nat.lt_succ_of_lt ends.2⟩
  size_outgoing := by simp [g.size_outgoing]
  size_incoming := by simp [g.size_incoming]
  outgoing_eq := fun n hn => by
    rw [Array.getElem_push]
    split
    next h => exact g.outgoing_eq n h
    next h =>
      refine (Array.filter_eq_empty_iff.2 fun e he => ?_).symm
      have ends := g.valid e he
      have size := g.size_outgoing
      simp only [Array.size_push, beq_iff_eq] at hn ⊢
      omega
  incoming_eq := fun n hn => by
    rw [Array.getElem_push]
    split
    next h => exact g.incoming_eq n h
    next h =>
      refine (Array.filter_eq_empty_iff.2 fun e he => ?_).symm
      have ends := g.valid e he
      have size := g.size_incoming
      simp only [Array.size_push, beq_iff_eq] at hn ⊢
      omega

/-- The new edge's number is the number of edges before. -/
def pushEdge (g : Digraph N E) (e : Edge E)
    (h : e.source < g.nodes.size ∧ e.target < g.nodes.size) : Digraph N E where
  nodes := g.nodes
  edges := g.edges.push e
  outgoing := g.outgoing.modify e.source (·.push e)
  incoming := g.incoming.modify e.target (·.push e)
  valid := fun e' he' => by
    rcases Array.mem_push.1 he' with he' | rfl
    · exact g.valid e' he'
    · exact h
  size_outgoing := by simp [g.size_outgoing]
  size_incoming := by simp [g.size_incoming]
  outgoing_eq := fun n hn => by
    simp only [Array.getElem_modify, Array.filter_push, beq_iff_eq]
    split <;> simp [g.outgoing_eq]
  incoming_eq := fun n hn => by
    simp only [Array.getElem_modify, Array.filter_push, beq_iff_eq]
    split <;> simp [g.incoming_eq]

/-- An edge needs both its ends; of two that are missing the source is reported. -/
def addEdge (g : Digraph N E) (source target : Nat) (data : E) :
    Except DanglingEdge (Digraph N E) :=
  if hs : source < g.nodes.size then
    if ht : target < g.nodes.size then .ok (g.pushEdge ⟨source, target, data⟩ ⟨hs, ht⟩)
    else .error ⟨.target, target, g.nodeCount⟩
  else .error ⟨.source, source, g.nodeCount⟩

theorem addEdge_of_lt {g : Digraph N E} {s t : Nat} (hs : s < g.nodes.size)
    (ht : t < g.nodes.size) (data : E) :
    g.addEdge s t data = .ok (g.pushEdge ⟨s, t, data⟩ ⟨hs, ht⟩) := by
  simp [addEdge, hs, ht]

theorem addEdge_of_source {g : Digraph N E} {s : Nat} (hs : g.nodes.size ≤ s) (t : Nat) (data : E) :
    g.addEdge s t data = .error ⟨.source, s, g.nodeCount⟩ :=
  dif_neg (Nat.not_lt.2 hs)

theorem addEdge_of_target {g : Digraph N E} {s t : Nat} (hs : s < g.nodes.size)
    (ht : g.nodes.size ≤ t) (data : E) :
    g.addEdge s t data = .error ⟨.target, t, g.nodeCount⟩ := by
  simp [addEdge, hs, Nat.not_lt.2 ht]

/-- The graph of the given nodes and edges. -/
def ofEdges (nodes : Array N) (edges : Array (Edge E))
    (valid : ∀ e ∈ edges, e.source < nodes.size ∧ e.target < nodes.size) : Digraph N E where
  nodes := nodes
  edges := edges
  outgoing := Array.ofFn fun n : Fin nodes.size => edges.filter (·.source == n.val)
  incoming := Array.ofFn fun n : Fin nodes.size => edges.filter (·.target == n.val)
  valid := valid
  size_outgoing := Array.size_ofFn
  size_incoming := Array.size_ofFn
  outgoing_eq := fun n h => by simp
  incoming_eq := fun n h => by simp

/-- Where the edges that leave `n` lead, in the order of their insertion. -/
def successors (g : Digraph N E) (n : Nat) : List Nat :=
  (g.outgoing.getD n #[]).toList.map (·.target)

/-- Where the edges that enter `n` come from, in the order of their insertion. -/
def predecessors (g : Digraph N E) (n : Nat) : List Nat :=
  (g.incoming.getD n #[]).toList.map (·.source)

/-- Target and data of the edges that leave `n`. -/
def outgoingEdges (g : Digraph N E) (n : Nat) : List (Nat × E) :=
  (g.outgoing.getD n #[]).toList.map fun e => (e.target, e.data)

/-- A table of edges by one of their ends keeps at `n` the edges that end there, and none at what is
no node. -/
theorem toList_getD {edges : Array (Edge E)} {table : Array (Array (Edge E))} {ends : Edge E → Nat}
    (kept : ∀ n (h : n < table.size), table[n] = edges.filter (ends · == n))
    (valid : ∀ e ∈ edges, ends e < table.size) (n : Nat) :
    (table.getD n #[]).toList = edges.toList.filter (ends · == n) := by
  by_cases h : n < table.size
  · simp [Array.getD, h, kept]
  · have none : edges.toList.filter (ends · == n) = [] := by
      refine List.filter_eq_nil_iff.2 fun e he => ?_
      have lt := valid e (Array.mem_toList_iff.1 he)
      simp only [beq_iff_eq]
      omega
    simp [Array.getD, h, none]

theorem toList_outgoing (g : Digraph N E) (n : Nat) :
    (g.outgoing.getD n #[]).toList = g.edges.toList.filter (·.source == n) :=
  toList_getD g.outgoing_eq (fun e he => g.size_outgoing ▸ (g.valid e he).1) n

theorem toList_incoming (g : Digraph N E) (n : Nat) :
    (g.incoming.getD n #[]).toList = g.edges.toList.filter (·.target == n) :=
  toList_getD g.incoming_eq (fun e he => g.size_incoming ▸ (g.valid e he).2) n

/-- The successors of `n` are the targets of the edges from `n`. -/
theorem successors_eq (g : Digraph N E) (n : Nat) :
    g.successors n = (g.edges.toList.filter (·.source == n)).map (·.target) := by
  rw [successors, toList_outgoing]

/-- The predecessors of `n` are the sources of the edges to `n`. -/
theorem predecessors_eq (g : Digraph N E) (n : Nat) :
    g.predecessors n = (g.edges.toList.filter (·.target == n)).map (·.source) := by
  rw [predecessors, toList_incoming]

theorem mem_successors {g : Digraph N E} {n m : Nat} :
    m ∈ g.successors n ↔ ∃ e ∈ g.edges, e.source = n ∧ e.target = m := by
  simp [successors_eq, and_assoc]

theorem mem_outgoingEdges {g : Digraph N E} {n m : Nat} {x : E} :
    (m, x) ∈ g.outgoingEdges n ↔ ∃ e ∈ g.edges, e.source = n ∧ e.target = m ∧ e.data = x := by
  rw [outgoingEdges, toList_outgoing]
  simp [and_assoc]

theorem mem_predecessors {g : Digraph N E} {n m : Nat} :
    m ∈ g.predecessors n ↔ ∃ e ∈ g.edges, e.target = n ∧ e.source = m := by
  simp [predecessors_eq, and_assoc]

/-- A node's number, or a fault. -/
def checkNode (g : Digraph N E) (n : Nat) : Except Fault Nat :=
  if n < g.nodeCount then .ok n else .error (.noNode n)

end Digraph
end FlowAnalysis
