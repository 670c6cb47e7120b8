import FlowAnalysis.Direction
import FlowAnalysis.Proofs.Digraph.Reachability
import FlowAnalysis.Proofs.FirstOccurrence

/-!
Walks in the direction in which facts flow. Main statements: the participants are the nodes that
such a walk reaches from the boundary node, and the visiting order lists each of them once.
-/
namespace FlowAnalysis
namespace FlowGraph

variable {g : FlowGraph} {d : Direction}

/-- Control goes from `a` to `b` along an edge. -/
def Step (g : FlowGraph) (a b : Nat) : Prop := b ∈ g.successors a

instance (a b : Nat) : Decidable (g.Step a b) := inferInstanceAs (Decidable (b ∈ g.successors a))

/-- Node `n` assigns `x`. -/
def Assigns (g : FlowGraph) (n : Nat) (x : Variable) : Prop :=
  ∃ node, g.node? n = some node ∧ node.assigned? = some x

/-- Facts flow from `a` to `b` along an edge. -/
def Feeds (g : FlowGraph) (d : Direction) (a b : Nat) : Prop := a ∈ g.sources d b

/-- Facts flow from the boundary node to `n` through the nodes `ns`. -/
def FlowWalk (g : FlowGraph) (d : Direction) (ns : List Nat) (n : Nat) : Prop :=
  Walk (g.Feeds d) (g.boundaryNode d) ns n

theorem feeds_forward {a b : Nat} : g.Feeds .forward a b ↔ g.Step a b :=
  Digraph.step_iff_mem_predecessors.symm

theorem flowWalk_forward {ns : List Nat} {n : Nat} :
    g.FlowWalk .forward ns n ↔ Walk g.Step g.entry ns n :=
  ⟨Walk.mono fun _ _ => feeds_forward.1, Walk.mono fun _ _ => feeds_forward.2⟩

/-- Facts flow from nodes to nodes. -/
theorem Feeds.lt {a b : Nat} (h : g.Feeds d a b) : a < g.nodeCount ∧ b < g.nodeCount := by
  cases d with
  | forward =>
    have step : g.graph.Step a b := feeds_forward.1 h
    exact ⟨step.source_lt, step.target_lt⟩
  | backward =>
    have step : g.graph.Step b a := h
    exact ⟨step.target_lt, step.source_lt⟩

@[simp] theorem mem_nodeIds {n : Nat} : n ∈ g.nodeIds ↔ n < g.nodeCount := List.mem_range

/-- Facts can reach node `n`: the entry reaches it, or it reaches the exit. -/
def Participates (g : FlowGraph) : Direction → Nat → Prop
  | .forward, n => n < g.nodeCount ∧ ∃ ns, Walk g.Step g.entry ns n
  | .backward, n => n < g.nodeCount ∧ ∃ ns, Walk g.Step n ns g.exit

/-- There is a flag for every node. -/
theorem size_participants : (g.participants d).size = g.nodeCount := by
  cases d with
  | forward => exact BitSet.size_foldl_add _ _
  | backward => exact Digraph.size_closeBackwards

theorem mem_participants {n : Nat} : n ∈ g.participants d ↔ g.Participates d n := by
  cases d with
  | forward => exact Digraph.mem_reachableFrom
  | backward => exact Digraph.mem_reachingTo

theorem participates_iff {n : Nat} :
    g.Participates d n ↔ n < g.nodeCount ∧ ∃ ns, g.FlowWalk d ns n := by
  cases d with
  | forward => simp only [Participates, flowWalk_forward]
  | backward =>
    refine and_congr_right fun _ => ⟨?_, ?_⟩
    · intro ⟨ns, walk⟩
      exact walk.reversed
    · intro ⟨ns, walk⟩
      exact walk.reversed

/-- The boundary node participates, if it is a node at all. -/
theorem participates_boundaryNode (lt : g.boundaryNode d < g.nodeCount) :
    g.Participates d (g.boundaryNode d) := participates_iff.2 ⟨lt, [], Walk.stay⟩

/-- Something flows into every participant. -/
theorem Participates.fed {n : Nat} (h : g.Participates d n) :
    n = g.boundaryNode d ∨ g.sources d n ≠ [] := by
  obtain ⟨-, ns, walk⟩ := participates_iff.1 h
  cases walk with
  | stay => exact Or.inl rfl
  | step walk feeds => exact Or.inr (List.ne_nil_of_mem feeds)

theorem mem_visitOrder {n : Nat} : n ∈ g.visitOrder d ↔ n ∈ g.participants d := by
  rw [visitOrder, List.mem_eraseDups, List.mem_filter, List.mem_append, mem_nodeIds,
    decide_eq_true_iff]
  exact ⟨fun h => h.2, fun h => ⟨Or.inr (participates_iff.1 (mem_participants.1 h)).1, h⟩⟩

theorem mem_visitOrder_iff (n : Nat) : n ∈ g.visitOrder d ↔ g.Participates d n :=
  mem_visitOrder.trans mem_participants

theorem nodup_visitOrder : (g.visitOrder d).Nodup := nodup_eraseDups _

theorem length_visitOrder : (g.visitOrder d).length = (g.participants d).count := by
  have nodup : (g.participants d).toList.Nodup :=
    (BitSet.pairwise_toList _).imp fun lt => Nat.ne_of_lt lt
  refine ((List.perm_ext_iff_of_nodup nodup_visitOrder nodup).2 fun n => ?_).length_eq
  rw [mem_visitOrder, BitSet.mem_toList]

theorem lt_of_mem_visitOrder {n : Nat} (h : n ∈ g.visitOrder d) : n < g.nodeCount :=
  (participates_iff.1 (mem_participants.1 (mem_visitOrder.1 h))).1

/-- Where facts flow from participants, they flow to participants. -/
theorem Feeds.participates {a b : Nat} (h : g.Feeds d a b) (ha : g.Participates d a) :
    g.Participates d b := by
  obtain ⟨-, ns, walk⟩ := participates_iff.1 ha
  exact participates_iff.2 ⟨h.lt.2, _, walk.step h⟩

end FlowGraph
end FlowAnalysis
