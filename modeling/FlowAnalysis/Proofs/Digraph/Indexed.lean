import FlowAnalysis.Digraph.Indexed
import FlowAnalysis.Proofs.Checked.Graph
import FlowAnalysis.Proofs.Digraph.Calls

/-!
Graphs with numbered edges. Main statement: the adjacency lists, the edges that they number and the
nodes stay in step whatever is called, so such graphs tell the nodes and edges that were added.
-/
namespace FlowAnalysis

open Checked (adjacency)

namespace Digraph

variable {N E : Type} {g : Digraph N E} {ends : Edge E → Nat}

/-- The graph with the numbers of edges in its lists. -/
def indexed (g : Digraph N E) : IndexedGraph N E where
  nodes := g.nodes
  edges := g.edges
  outgoing := adjacency g (·.source)
  incoming := adjacency g (·.target)

@[simp] theorem size_adjacency : (adjacency g ends).size = g.nodeCount := Array.size_ofFn

theorem getElem_adjacency {n : Nat} (h : n < (adjacency g ends).size) : (adjacency g ends)[n] =
    (g.edges.toList.zipIdx.filter fun (e, _) => ends e == n).map Prod.snd := by
  simp [adjacency]

/-- A new node has no edges. -/
theorem adjacency_addNode (valid : ∀ e ∈ g.edges, ends e < g.nodeCount) (x : N) :
    adjacency (g.addNode x) ends = (adjacency g ends).push [] := by
  apply Array.ext
  · simp [nodeCount, addNode]
  · intro n lt _
    rw [getElem_adjacency, Array.getElem_push]
    split
    next => rw [getElem_adjacency]; rfl
    next old =>
      have none : ∀ p ∈ g.edges.toList.zipIdx, ¬ (ends p.1 == n) = true := by
        intro p mem
        have below := valid p.1 (Array.mem_toList_iff.1 (List.fst_mem_of_mem_zipIdx mem))
        rw [size_adjacency] at old
        simp only [beq_iff_eq]
        omega
      change List.map _ (g.edges.toList.zipIdx.filter _) = _
      rw [List.filter_eq_nil_iff.2 none, List.map_nil]

/-- A new edge is the last one of both its ends. -/
theorem adjacency_pushEdge (e : Edge E) (h) : adjacency (g.pushEdge e h) ends =
    (adjacency g ends).modify (ends e) (· ++ [g.edgeCount]) := by
  apply Array.ext
  · simp [nodeCount, pushEdge]
  · intro n lt _
    rw [getElem_adjacency, Array.getElem_modify, getElem_adjacency]
    simp only [pushEdge, Array.toList_push, List.zipIdx_append, List.filter_append, List.map_append]
    split
    next same => simp [same, edgeCount]
    next other => simp [other]

end Digraph

namespace IndexedGraph

variable {N E : Type}

def kind : GraphKind (IndexedGraph N E) N E where
  empty := empty
  addNode := addNode
  addEdge := addEdge
  nodeIds := nodeIds
  nodes := fun g => g.nodes.toList.zipIdx
  edges := fun g => g.edges.toList
  successors := successors
  predecessors := predecessors
  outgoingEdges := outgoingEdges

variable {g : Digraph N E}

theorem addNode_indexed (g : Digraph N E) (x : N) :
    g.indexed.addNode x = (g.nodeCount, (g.addNode x).indexed) := by
  simp only [Digraph.indexed]
  rw [Digraph.adjacency_addNode fun e he => (g.valid e he).1,
    Digraph.adjacency_addNode fun e he => (g.valid e he).2]
  rfl

theorem nodeCount_indexed : g.indexed.nodeCount = g.nodeCount := rfl

theorem missing?_eq (g : IndexedGraph N E) (s t : Nat) : g.missing? s t =
    if s < g.nodeCount then
      if t < g.nodeCount then none else some ⟨.target, t, g.nodeCount⟩
    else some ⟨.source, s, g.nodeCount⟩ := by
  by_cases source : s < g.nodeCount
  · by_cases target : t < g.nodeCount
    · simp [missing?, source, target]
    · simp [missing?, source, target]
  · simp [missing?, source]

theorem enlist_adjacency (ends : Edge E → Nat) (e : Edge E) (h) (lt : ends e < g.nodeCount) :
    enlist (adjacency g ends) (ends e) g.edgeCount = some (adjacency (g.pushEdge e h) ends) := by
  rw [Digraph.adjacency_pushEdge]
  exact if_pos (Digraph.size_adjacency ▸ lt)

theorem addEdge_indexed (g : Digraph N E) (s t : Nat) (x : E) :
    g.indexed.addEdge s t x = (Digraph.kind.addEdge g s t x).map (Prod.map id Digraph.indexed) := by
  have missing := g.indexed.missing?_eq s t
  rw [nodeCount_indexed] at missing
  rcases Nat.lt_or_ge s g.nodeCount with source | out
  · rcases Nat.lt_or_ge t g.nodeCount with target | out
    · rw [if_pos source, if_pos target] at missing
      have listed := enlist_adjacency (·.source) ⟨s, t, x⟩ ⟨source, target⟩ source
      have listed' := enlist_adjacency (·.target) ⟨s, t, x⟩ ⟨source, target⟩ target
      rw [Digraph.kind_addEdge source target, addEdge, missing]
      change (enlist (adjacency g (·.source)) s g.edgeCount >>= fun outgoing =>
        enlist (adjacency g (·.target)) t g.edgeCount >>= fun incoming => _) = _
      rw [listed, listed']
      rfl
    · rw [if_pos source, if_neg (Nat.not_lt.2 out)] at missing
      rw [Digraph.kind_addEdge_of_target source out, addEdge, missing]
      rfl
  · rw [if_neg (Nat.not_lt.2 out)] at missing
    rw [Digraph.kind_addEdge_of_source out, addEdge, missing]
    rfl

/-- A list is there for every node and for nothing else, and so is each edge that it numbers. -/
theorem lookUp_indexed {α : Type} {ends : Edge E → Nat} (read : Edge E → α) (n : Nat) :
    g.indexed.lookUp (adjacency g ends) read n =
      if n < g.nodeCount then some ((g.edges.toList.filter (ends · == n)).map read) else none := by
  split
  next lt =>
    rw [lookUp, Array.getElem?_eq_getElem (Digraph.size_adjacency.symm ▸ lt),
      Digraph.getElem_adjacency]
    exact Checked.mapM_numbers g.edges (ends · == n) read
  next out => simp [lookUp, out]

theorem respects_indexed :
    GraphKind.Respects Digraph.indexed (Digraph.kind (N := N) (E := E)) kind where
  empty := rfl
  addNode := addNode_indexed
  addEdge := addEdge_indexed
  nodeIds := fun _ => rfl
  nodes := fun _ => rfl
  edges := fun _ => rfl
  successors := fun g n => by
    refine (lookUp_indexed (·.target) n).trans ?_
    rw [← Digraph.successors_eq]
    rfl
  predecessors := fun g n => by
    refine (lookUp_indexed (·.source) n).trans ?_
    rw [← Digraph.predecessors_eq]
    rfl
  outgoingEdges := fun g n => by
    refine (lookUp_indexed (fun e => (e.target, e.data)) n).trans ?_
    rw [← Digraph.toList_outgoing]
    rfl

end IndexedGraph

/-- Whatever is called, graphs tell the nodes and edges that were added, in their order, and edges
that miss an end change nothing. Numbered edges make no difference. -/
theorem graphs_faithful (N E : Type) : (IndexedGraph.kind (N := N) (E := E)).Faithful ∧
    (Digraph.kind (N := N) (E := E)).Faithful ∧
    ∀ calls : List (GraphCall N E), IndexedGraph.kind.run calls =
      (Digraph.kind.run calls).map (Prod.map id Digraph.indexed) :=
  ⟨IndexedGraph.respects_indexed.faithful Digraph.faithful_kind, Digraph.faithful_kind,
    IndexedGraph.respects_indexed.run⟩

end FlowAnalysis
