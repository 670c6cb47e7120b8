import FlowAnalysis.Digraph

/-!
Graphs built call by call. Main statement: whatever nodes and edges are added, with missing ends or
not, a graph tells the nodes and the accepted edges in the order of their calls, and a call that is
refused leaves it as it was.
-/
namespace FlowAnalysis

/-- How graphs of a kind are built, and what they tell. An addition answers the new number, and one
of an edge without an end which end is missing. -/
structure GraphKind (G N E : Type) where
  empty : G
  addNode : G → N → Nat × G
  addEdge : G → Nat → Nat → E → Option (Except DanglingEdge Nat × G)
  nodeIds : G → List Nat
  nodes : G → List (N × Nat)
  edges : G → List (Edge E)
  successors : G → Nat → Option (List Nat)
  predecessors : G → Nat → Option (List Nat)
  outgoingEdges : G → Nat → Option (List (Nat × E))

inductive GraphCall (N E : Type)
  | addNode (data : N)
  | addEdge (source target : Nat) (data : E)

namespace GraphCall

variable {N E : Type}

def nodeData? : GraphCall N E → Option N
  | addNode x => some x
  | addEdge .. => none

/-- A call that was answered with a node's number, and that number. -/
def newNode? : GraphCall N E × Except DanglingEdge Nat → Option (N × Nat)
  | (addNode x, .ok n) => some (x, n)
  | _ => none

/-- A call that was answered with an edge's number, and that number. -/
def newEdge? : GraphCall N E × Except DanglingEdge Nat → Option (Edge E × Nat)
  | (addEdge s t x, .ok e) => some (⟨s, t, x⟩, e)
  | _ => none

/-- The nodes that calls with these answers add. -/
def newNodes (calls : List (GraphCall N E)) (answers : List (Except DanglingEdge Nat)) :
    List (N × Nat) := (calls.zip answers).filterMap newNode?

/-- The edges that calls with these answers add. -/
def newEdges (calls : List (GraphCall N E)) (answers : List (Except DanglingEdge Nat)) :
    List (Edge E × Nat) := (calls.zip answers).filterMap newEdge?

variable {c : GraphCall N E} {calls : List (GraphCall N E)} {answer : Except DanglingEdge Nat}
  {answers : List (Except DanglingEdge Nat)}

theorem newNodes_cons : newNodes (c :: calls) (answer :: answers) =
    newNodes [c] [answer] ++ newNodes calls answers := by
  change ([(c, answer)] ++ calls.zip answers).filterMap newNode? = _
  exact List.filterMap_append

theorem newEdges_cons : newEdges (c :: calls) (answer :: answers) =
    newEdges [c] [answer] ++ newEdges calls answers := by
  change ([(c, answer)] ++ calls.zip answers).filterMap newEdge? = _
  exact List.filterMap_append

end GraphCall

namespace GraphKind

variable {G H N E : Type}

def call (k : GraphKind G N E) (g : G) : GraphCall N E → Option (Except DanglingEdge Nat × G)
  | .addNode x =>
    let (n, g) := k.addNode g x
    some (.ok n, g)
  | .addEdge s t x => k.addEdge g s t x

/-- The answers to some calls, and the graph after them. -/
def runFrom (k : GraphKind G N E) (g : G) :
    List (GraphCall N E) → Option (List (Except DanglingEdge Nat) × G)
  | [] => some ([], g)
  | c :: cs => do
    let (answer, g) ← k.call g c
    let (answers, g) ← k.runFrom g cs
    return (answer :: answers, g)

def run (k : GraphKind G N E) (calls : List (GraphCall N E)) :
    Option (List (Except DanglingEdge Nat) × G) := k.runFrom k.empty calls

/-- After calls with these answers, `g` tells and does what it should. -/
structure Shows (k : GraphKind G N E) (calls : List (GraphCall N E))
    (answers : List (Except DanglingEdge Nat)) (g : G) : Prop where
  nodes : k.nodes g = GraphCall.newNodes calls answers
  nodeData : (k.nodes g).map Prod.fst = calls.filterMap GraphCall.nodeData?
  nodeNumbers : (k.nodes g).map Prod.snd = List.range (k.nodes g).length
  nodeIds : k.nodeIds g = List.range (k.nodes g).length
  edges : k.edges g = (GraphCall.newEdges calls answers).map Prod.fst
  edgeNumbers : (GraphCall.newEdges calls answers).map Prod.snd = List.range (k.edges g).length
  successors : ∀ n ∈ k.nodeIds g, k.successors g n =
    some (((k.edges g).filter (·.source == n)).map (·.target))
  outgoingEdges : ∀ n ∈ k.nodeIds g, k.outgoingEdges g n =
    some (((k.edges g).filter (·.source == n)).map fun e => (e.target, e.data))
  predecessors : ∀ n ∈ k.nodeIds g, k.predecessors g n =
    some (((k.edges g).filter (·.target == n)).map (·.source))
  balanced : ∀ m n ms ns, k.predecessors g n = some ms → k.successors g m = some ns →
    ms.count m = ns.count n
  noNode : ∀ n, n ∉ k.nodeIds g →
    k.successors g n = none ∧ k.outgoingEdges g n = none ∧ k.predecessors g n = none
  noSource : ∀ s t x, s ∉ k.nodeIds g →
    k.addEdge g s t x = some (.error ⟨.source, s, (k.nodes g).length⟩, g)
  noTarget : ∀ s t x, s ∈ k.nodeIds g → t ∉ k.nodeIds g →
    k.addEdge g s t x = some (.error ⟨.target, t, (k.nodes g).length⟩, g)
  accepts : ∀ s t x, s ∈ k.nodeIds g → t ∈ k.nodeIds g →
    ∃ g', k.addEdge g s t x = some (.ok (k.edges g).length, g')
  later : ∀ more, ∃ answers' g', k.run (calls ++ more) = some (answers ++ answers', g') ∧
    k.nodes g <+: k.nodes g' ∧ k.edges g <+: k.edges g'

/-- All calls have an outcome, and the graphs that they make tell what was called. -/
def Faithful (k : GraphKind G N E) : Prop :=
  ∀ calls, ∃ answers g, k.run calls = some (answers, g) ∧ k.Shows calls answers g

theorem runFrom_append {k : GraphKind G N E} {g g' g'' : G} {calls more : List (GraphCall N E)}
    {answers answers' : List (Except DanglingEdge Nat)}
    (ran : k.runFrom g calls = some (answers, g'))
    (ran' : k.runFrom g' more = some (answers', g'')) :
    k.runFrom g (calls ++ more) = some (answers ++ answers', g'') := by
  induction calls generalizing g answers with
  | nil =>
    obtain ⟨rfl, rfl⟩ : [] = answers ∧ g = g' := by simpa [runFrom] using ran
    exact ran'
  | cons c cs ih =>
    simp only [runFrom, Option.bind_eq_bind, Option.bind_eq_some_iff, List.cons_append] at ran ⊢
    obtain ⟨⟨a, g₁⟩, called, ⟨as, g₂⟩, rest, same⟩ := ran
    obtain ⟨rfl, rfl⟩ : a :: as = answers ∧ g₂ = g' := by simpa using same
    exact ⟨(a, g₁), called, (as ++ answers', g''), ih rest, rfl⟩

/-- Every call does to `f g` what it does to `g`, and `f g` tells what `g` tells. -/
structure Respects (f : G → H) (j : GraphKind G N E) (k : GraphKind H N E) : Prop where
  empty : k.empty = f j.empty
  addNode : ∀ g x, k.addNode (f g) x = Prod.map id f (j.addNode g x)
  addEdge : ∀ g s t x, k.addEdge (f g) s t x = (j.addEdge g s t x).map (Prod.map id f)
  nodeIds : ∀ g, k.nodeIds (f g) = j.nodeIds g
  nodes : ∀ g, k.nodes (f g) = j.nodes g
  edges : ∀ g, k.edges (f g) = j.edges g
  successors : ∀ g n, k.successors (f g) n = j.successors g n
  predecessors : ∀ g n, k.predecessors (f g) n = j.predecessors g n
  outgoingEdges : ∀ g n, k.outgoingEdges (f g) n = j.outgoingEdges g n

variable {f : G → H} {j : GraphKind G N E} {k : GraphKind H N E}

theorem Respects.call (h : Respects f j k) (g : G) (c : GraphCall N E) :
    k.call (f g) c = (j.call g c).map (Prod.map id f) := by
  cases c with
  | addNode x => simp only [GraphKind.call, h.addNode, Prod.map, Option.map_some, id]
  | addEdge s t x => exact h.addEdge g s t x

theorem Respects.runFrom (h : Respects f j k) (g : G) (calls : List (GraphCall N E)) :
    k.runFrom (f g) calls = (j.runFrom g calls).map (Prod.map id f) := by
  induction calls generalizing g with
  | nil => rfl
  | cons c cs ih =>
    rw [GraphKind.runFrom, GraphKind.runFrom, h.call]
    cases j.call g c with
    | none => rfl
    | some after =>
      obtain ⟨answer, g'⟩ := after
      change (k.runFrom (f g') cs >>= _) = Option.map _ (j.runFrom g' cs >>= _)
      rw [ih]
      cases j.runFrom g' cs with
      | none => rfl
      | some after => rfl

theorem Respects.run (h : Respects f j k) (calls : List (GraphCall N E)) :
    k.run calls = (j.run calls).map (Prod.map id f) := by
  rw [GraphKind.run, h.empty, h.runFrom, GraphKind.run]

theorem Respects.shows (h : Respects f j k) {calls : List (GraphCall N E)}
    {answers : List (Except DanglingEdge Nat)} {g : G} (shows : j.Shows calls answers g) :
    k.Shows calls answers (f g) where
  nodes := by rw [h.nodes, shows.nodes]
  nodeData := by rw [h.nodes, shows.nodeData]
  nodeNumbers := by rw [h.nodes, shows.nodeNumbers]
  nodeIds := by rw [h.nodeIds, h.nodes, shows.nodeIds]
  edges := by rw [h.edges, shows.edges]
  edgeNumbers := by rw [h.edges, shows.edgeNumbers]
  successors := by simpa only [h.nodeIds, h.successors, h.edges] using shows.successors
  outgoingEdges := by simpa only [h.nodeIds, h.outgoingEdges, h.edges] using shows.outgoingEdges
  predecessors := by simpa only [h.nodeIds, h.predecessors, h.edges] using shows.predecessors
  balanced := by simpa only [h.predecessors, h.successors] using shows.balanced
  noNode := by
    simpa only [h.nodeIds, h.successors, h.outgoingEdges, h.predecessors] using shows.noNode
  noSource := fun s t x out => by
    rw [h.addEdge, h.nodes, shows.noSource s t x (h.nodeIds g ▸ out)]
    rfl
  noTarget := fun s t x mem out => by
    rw [h.addEdge, h.nodes, shows.noTarget s t x (h.nodeIds g ▸ mem) (h.nodeIds g ▸ out)]
    rfl
  accepts := fun s t x mem mem' => by
    obtain ⟨g', added⟩ := shows.accepts s t x (h.nodeIds g ▸ mem) (h.nodeIds g ▸ mem')
    exact ⟨f g', by rw [h.addEdge, h.edges, added]; rfl⟩
  later := fun more => by
    obtain ⟨answers', g', ran, nodes, edges⟩ := shows.later more
    refine ⟨answers', f g', by rw [h.run, ran]; rfl, ?_, ?_⟩
    · rwa [h.nodes, h.nodes]
    · rwa [h.edges, h.edges]

theorem Respects.faithful (h : Respects f j k) (faithful : j.Faithful) : k.Faithful := by
  intro calls
  obtain ⟨answers, g, ran, shows⟩ := faithful calls
  exact ⟨answers, f g, by rw [h.run, ran]; rfl, h.shows shows⟩

end GraphKind

namespace Digraph

variable {N E : Type}

/-- Queries need a node. -/
def kind : GraphKind (Digraph N E) N E where
  empty := empty
  addNode := fun g x => (g.nodeCount, g.addNode x)
  addEdge := fun g s t x =>
    match g.addEdge s t x with
    | .ok g' => some (.ok g.edgeCount, g')
    | .error dangling => some (.error dangling, g)
  nodeIds := nodeIds
  nodes := fun g => g.nodes.toList.zipIdx
  edges := fun g => g.edges.toList
  successors := fun g n => if n < g.nodeCount then some (g.successors n) else none
  predecessors := fun g n => if n < g.nodeCount then some (g.predecessors n) else none
  outgoingEdges := fun g n => if n < g.nodeCount then some (g.outgoingEdges n) else none

/-- What calls with these answers make of `g`. -/
structure Grows (g g' : Digraph N E) (calls : List (GraphCall N E))
    (answers : List (Except DanglingEdge Nat)) : Prop where
  nodes : g'.nodes.toList.zipIdx = g.nodes.toList.zipIdx ++ GraphCall.newNodes calls answers
  data : (GraphCall.newNodes calls answers).map Prod.fst = calls.filterMap GraphCall.nodeData?
  edges : g'.edges.toList.zipIdx = g.edges.toList.zipIdx ++ GraphCall.newEdges calls answers

variable {g g' g'' : Digraph N E} {c : GraphCall N E} {calls : List (GraphCall N E)}
  {answer : Except DanglingEdge Nat} {answers : List (Except DanglingEdge Nat)}

namespace Grows

theorem refl : Grows g g [] [] := ⟨by simp [GraphCall.newNodes], rfl, by simp [GraphCall.newEdges]⟩

theorem cons (h : Grows g g' [c] [answer]) (h' : Grows g' g'' calls answers) :
    Grows g g'' (c :: calls) (answer :: answers) := by
  have data : (c :: calls).filterMap GraphCall.nodeData? =
      [c].filterMap GraphCall.nodeData? ++ calls.filterMap GraphCall.nodeData? := by
    rw [← List.filterMap_append, List.singleton_append]
  refine ⟨?_, ?_, ?_⟩
  · rw [h'.nodes, h.nodes, List.append_assoc, ← GraphCall.newNodes_cons]
  · rw [GraphCall.newNodes_cons, data, List.map_append, h.data, h'.data]
  · rw [h'.edges, h.edges, List.append_assoc, ← GraphCall.newEdges_cons]

/-- Nodes and edges that were there stay where they are. -/
theorem keeps (h : Grows g g' calls answers) : g.nodes.toList.zipIdx <+: g'.nodes.toList.zipIdx ∧
    g.edges.toList <+: g'.edges.toList := by
  refine ⟨h.nodes ▸ List.prefix_append _ _, ?_⟩
  have edges := congrArg (List.map Prod.fst) h.edges
  rw [List.map_append, List.zipIdx_map_fst, List.zipIdx_map_fst] at edges
  exact edges ▸ List.prefix_append _ _

end Grows

theorem kind_addEdge {s t : Nat} (source : s < g.nodeCount) (target : t < g.nodeCount) (x : E) :
    kind.addEdge g s t x = some (.ok g.edgeCount, g.pushEdge ⟨s, t, x⟩ ⟨source, target⟩) := by
  simp only [kind, addEdge_of_lt source target x]

theorem kind_addEdge_of_source {s : Nat} (out : g.nodeCount ≤ s) (t : Nat) (x : E) :
    kind.addEdge g s t x = some (.error ⟨.source, s, g.nodeCount⟩, g) := by
  simp only [kind, addEdge_of_source out t x]

theorem kind_addEdge_of_target {s t : Nat} (source : s < g.nodeCount) (out : g.nodeCount ≤ t)
    (x : E) : kind.addEdge g s t x = some (.error ⟨.target, t, g.nodeCount⟩, g) := by
  simp only [kind, addEdge_of_target source out x]

/-- A call that is refused adds nothing. -/
theorem Grows.refused {s t : Nat} {x : E} {dangling : DanglingEdge} :
    Grows g g [.addEdge s t x] [.error dangling] :=
  ⟨(List.append_nil _).symm, rfl, (List.append_nil _).symm⟩

/-- Every call has an outcome, and adds what its answer numbers. -/
theorem exists_call (g : Digraph N E) (c : GraphCall N E) :
    ∃ answer g', kind.call g c = some (answer, g') ∧ Grows g g' [c] [answer] := by
  cases c with
  | addNode x =>
    refine ⟨.ok g.nodeCount, g.addNode x, rfl, ?_, rfl, ?_⟩
    · simp [addNode, GraphCall.newNodes, GraphCall.newNode?, nodeCount, List.zipIdx_append]
    · simp [addNode, GraphCall.newEdges, GraphCall.newEdge?]
  | addEdge s t x =>
    rcases Nat.lt_or_ge s g.nodeCount with source | out
    · rcases Nat.lt_or_ge t g.nodeCount with target | out
      · refine ⟨_, _, kind_addEdge source target x, ?_, rfl, ?_⟩
        · simp [pushEdge, GraphCall.newNodes, GraphCall.newNode?]
        · simp [pushEdge, GraphCall.newEdges, GraphCall.newEdge?, edgeCount, List.zipIdx_append]
      · exact ⟨_, _, kind_addEdge_of_target source out x, .refused⟩
    · exact ⟨_, _, kind_addEdge_of_source out t x, .refused⟩

theorem exists_runFrom (g : Digraph N E) (calls : List (GraphCall N E)) :
    ∃ answers g', kind.runFrom g calls = some (answers, g') ∧ Grows g g' calls answers := by
  induction calls generalizing g with
  | nil => exact ⟨[], g, rfl, .refl⟩
  | cons c cs ih =>
    obtain ⟨answer, g₁, called, first⟩ := exists_call g c
    obtain ⟨answers, g₂, ran, rest⟩ := ih g₁
    exact ⟨answer :: answers, g₂, by simp [GraphKind.runFrom, called, ran], first.cons rest⟩

theorem mem_nodeIds {n : Nat} : n ∈ g.nodeIds ↔ n < g.nodeCount := List.mem_range

/-- There are as many edges from `m` among those to `n` as edges to `n` among those from `m`. -/
theorem count_predecessors (m n : Nat) :
    (g.predecessors n).count m = (g.successors m).count n := by
  rw [predecessors_eq, successors_eq]
  simp only [List.count_eq_countP, List.countP_map, List.countP_filter]
  refine congrArg (fun p => g.edges.toList.countP p) (funext fun e => ?_)
  exact Bool.and_comm _ _

theorem faithful_kind : (kind (N := N) (E := E)).Faithful := by
  intro calls
  obtain ⟨answers, g, ran, grows⟩ := exists_runFrom .empty calls
  have nodes : g.nodes.toList.zipIdx = GraphCall.newNodes calls answers := grows.nodes
  have edges : g.edges.toList.zipIdx = GraphCall.newEdges calls answers := grows.edges
  have count : (kind.nodes g).length = g.nodeCount := by simp [kind, nodeCount]
  refine ⟨answers, g, ran, ?_⟩
  exact {
    nodes := nodes
    nodeData := by
      rw [← grows.data, ← nodes]
      rfl
    nodeNumbers := by
      rw [count]
      simp [kind, List.range_eq_range', nodeCount]
    nodeIds := by
      rw [count]
      rfl
    edges := by
      rw [← edges, List.zipIdx_map_fst]
      rfl
    edgeNumbers := by
      rw [← edges]
      simp [kind, List.range_eq_range']
    successors := by
      intro n mem
      exact (if_pos (mem_nodeIds.1 mem)).trans (congrArg some (g.successors_eq n))
    outgoingEdges := by
      intro n mem
      refine (if_pos (mem_nodeIds.1 mem)).trans (congrArg some ?_)
      rw [outgoingEdges, toList_outgoing]
      rfl
    predecessors := by
      intro n mem
      exact (if_pos (mem_nodeIds.1 mem)).trans (congrArg some (g.predecessors_eq n))
    balanced := by
      intro m n ms ns before after
      have sources := Option.some.inj (Option.ite_none_right_eq_some.1 before).2
      have targets := Option.some.inj (Option.ite_none_right_eq_some.1 after).2
      rw [← sources, ← targets]
      exact count_predecessors m n
    noNode := by
      intro n out
      have out : ¬ n < g.nodeCount := mt mem_nodeIds.2 out
      exact ⟨if_neg out, if_neg out, if_neg out⟩
    noSource := by
      intro s t x out
      rw [count]
      exact kind_addEdge_of_source (Nat.le_of_not_lt (mt mem_nodeIds.2 out)) t x
    noTarget := by
      intro s t x source out
      rw [count]
      have out : g.nodeCount ≤ t := Nat.le_of_not_lt (mt mem_nodeIds.2 out)
      exact kind_addEdge_of_target (mem_nodeIds.1 source) out x
    accepts := by
      intro s t x source target
      exact ⟨_, kind_addEdge (mem_nodeIds.1 source) (mem_nodeIds.1 target) x⟩
    later := by
      intro more
      obtain ⟨answers', g', ran', grows'⟩ := exists_runFrom g more
      exact ⟨answers', g', GraphKind.runFrom_append ran ran', grows'.keeps⟩ }

end Digraph

end FlowAnalysis
