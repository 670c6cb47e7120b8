import FlowAnalysis.Proofs.GenKill.Squeeze
import FlowAnalysis.Proofs.Solver.MeetOverWalks
import FlowAnalysis.Proofs.Solver.Schedule

/-!
Nodes that take no part. Main statement: after any passes of any kinds, and when the solver has come
to rest, the warnings name just those nodes, and their states are still the initial value.
-/
namespace FlowAnalysis

/-- The nodes that take no part are named in warnings, each once and in order, and have the initial
value before and after them. -/
structure Results.Spares (r : Results BitSet) (g : FlowGraph) (p : GenKill) (idle : List Nat) :
    Prop where
  warnings : idle.Forall₂ (fun n w => ∃ l, g.label? n = some l ∧ w = .unreachable l) r.warnings
  entry : ∀ n ∈ idle, r.entryStates[n]? = some (.ofBits p.initial)
  exit : ∀ n ∈ idle, r.exitStates[n]? = some (.ofBits p.initial)

namespace FlowGraph

variable {g : FlowGraph} {d : Direction} {n : Nat}

theorem mem_idleNodes : n ∈ g.idleNodes d ↔ n < g.nodeCount ∧ ¬ g.Participates d n := by
  rw [idleNodes, List.mem_filter, mem_nodeIds, decide_eq_true_iff, mem_participants]

theorem pairwise_idleNodes : (g.idleNodes d).Pairwise (· < ·) :=
  List.pairwise_lt_range.filter _

end FlowGraph

namespace Solver

variable {g : FlowGraph} {p : GenKill} {strategy : Strategy} {schedule : Nat → Strategy}
  {r : Results BitSet} {k : Nat}

theorem forall₂_warnings (g : FlowGraph) (p : GenKill) : (g.idleNodes p.direction).Forall₂
    (fun n w => ∃ l, g.label? n = some l ∧ w = .unreachable l) (new g p).warnings := by
  have each : ∀ ns : List Nat, (∀ n ∈ ns, n < g.nodeCount) → ns.Forall₂
      (fun n w => ∃ l, g.label? n = some l ∧ w = .unreachable l)
      (ns.filterMap fun n => Warning.unreachable <$> g.label? n) := by
    intro ns inside
    induction ns with
    | nil => exact .nil
    | cons n ns ih =>
      obtain ⟨lt, inside⟩ := List.forall_mem_cons.1 inside
      obtain ⟨node, at_n⟩ : ∃ node, g.node? n = some node := ⟨_, Array.getElem?_eq_getElem lt⟩
      have label : g.label? n = some node.label := congrArg (Option.map Node.label) at_n
      rw [List.filterMap_cons, label]
      exact .cons ⟨_, label, rfl⟩ (ih inside)
  exact each _ fun n mem => (FlowGraph.mem_idleNodes.1 mem).1

/-- No pass comes by the nodes that take no part. -/
theorem spares_of_shows (warnings : r.warnings = (new g p).warnings)
    (shows : r.Shows g.nodeCount p.direction
      (p.sweeps g schedule (g.visitOrder p.direction) (p.initialValuation g) k)) :
    r.Spares g p (g.idleNodes p.direction) := by
  generalize reached : p.sweeps g schedule (g.visitOrder p.direction) (p.initialValuation g) k = v
    at shows
  have untouched : ∀ n ∈ g.idleNodes p.direction, n < g.nodeCount ∧
      v.entry p.direction n = p.initial ∧ v.exit p.direction n = p.initial := by
    intro n mem
    obtain ⟨lt, idle⟩ := FlowGraph.mem_idleNodes.1 mem
    obtain ⟨before, after⟩ := GenKill.initialValuation_of_idle lt idle
    have same : v.SameAt (p.initialValuation g) n := reached ▸ GenKill.sweeps_sameAt fun visited =>
      idle ((FlowGraph.mem_visitOrder_iff n).1 visited)
    refine ⟨lt, ?_⟩
    cases p.direction with
    | forward => exact ⟨same.1.trans before, same.2.trans after⟩
    | backward => exact ⟨same.2.trans after, same.1.trans before⟩
  refine ⟨warnings ▸ forall₂_warnings g p, fun n mem => ?_, fun n mem => ?_⟩
  · obtain ⟨lt, entry, -⟩ := untouched n mem
    rw [shows.entryAt lt, entry]
  · obtain ⟨lt, -, exit⟩ := untouched n mem
    rw [shows.exitAt lt, exit]

/-- A solver that has followed a schedule also comes to rest when it goes on with passes of one
kind. -/
theorem exists_solve_follow (g : FlowGraph) (p : GenKill) (schedule : Nat → Strategy) (k : Nat)
    (strategy : Strategy) : ∃ r l, (((new g p).withStrategy strategy).reached
        (p.sweeps g schedule (g.visitOrder p.direction) (p.initialValuation g) k) k).solve = .ok r ∧
      r.Shows g.nodeCount p.direction (p.sweeps g (fun _ => strategy) (g.visitOrder p.direction)
        (p.initialValuation g) l) := by
  have visits := FlowGraph.mem_visitOrder_iff (g := g) (d := p.direction)
  have nodup : (g.visitOrder p.direction).Nodup := FlowGraph.nodup_visitOrder
  have start := GenKill.not_moved_initialValuation (p := p) (g := g)
  obtain ⟨m, le, quiet⟩ := GenKill.exists_firstQuiet visits nodup start fun _ => strategy
  obtain ⟨-, settled⟩ := quiet.settled visits nodup
  have behind : p.Trails
      (p.sweeps g schedule (g.visitOrder p.direction) (p.initialValuation g) k)
      (p.sweeps g (fun _ => strategy) (g.visitOrder p.direction) (p.initialValuation g) m) :=
    GenKill.sweeps_trails visits start settled
  obtain ⟨l, next, first, there⟩ := quiet.squeeze visits nodup start behind fun n idle =>
    (GenKill.sweeps_sameAt idle).trans (GenKill.sweeps_sameAt idle).symm
  let s := (new g p).withStrategy strategy
  have enough : l < s.limit := by
    have limit : (g.visitOrder p.direction).length * p.size + 2 < s.limit := s.add_lt_limit
    omega
  obtain ⟨r, solved, -, shows⟩ := solve_reached (s := s) ready_new first enough k
  exact ⟨r, m, solved, there ▸ shows⟩

/-- Whatever passes a new solver makes, and when it goes on to come to rest, its warnings name the
nodes that take no part, which are those that the entry does not reach or, if facts flow backward,
those that do not reach the exit; and it leaves the states of these nodes at the initial value. -/
theorem idle_nodes_untouched (g : FlowGraph) (p : GenKill) :
    ∃ idle : List Nat, idle.Pairwise (· < ·) ∧
      (∀ n, n ∈ idle ↔ n < g.nodeCount ∧ ¬ g.Participates p.direction n) ∧
      ∀ (schedule : Nat → Strategy) (k : Nat), ∃ s changed,
        (new g p).follow schedule k = .ok (s, changed) ∧ s.results.Spares g p idle ∧
        ∀ strategy, ∃ r, (s.withStrategy strategy).solve = .ok r ∧ r.Spares g p idle := by
  refine ⟨g.idleNodes p.direction, FlowGraph.pairwise_idleNodes,
    fun n => FlowGraph.mem_idleNodes, fun schedule k => ?_⟩
  obtain ⟨last, changed, followed⟩ := exists_follow_eq g p schedule k
  refine ⟨_, changed, followed, ?_, fun strategy => ?_⟩
  · exact spares_of_shows rfl (results_reached (s := (new g p).withStrategy last) _ k)
  · obtain ⟨r, l, solved, shows⟩ := exists_solve_follow g p schedule k strategy
    exact ⟨r, solved, spares_of_shows ((warnings_of_solve solved).trans rfl) shows⟩

/-- Nothing leads to the last node of the graph. -/
theorem idle_nodes_untouched_selfLoop :
    ¬ GenKill.selfLoopGraph.Participates .forward 3 ∧
      ∃ s changed r, (new GenKill.selfLoopGraph (GenKill.selfLoop .forward .union)).follow
          (fun k => if k = 0 then .jacobi else .gaussSeidel) 2 = .ok (s, changed) ∧
        s.results.entryStates[3]? = some (.ofBits (GenKill.selfLoop .forward .union).initial) ∧
        (s.withStrategy .jacobi).solve = .ok r ∧
        r.exitStates[3]? = some (.ofBits (GenKill.selfLoop .forward .union).initial) := by
  have apart : ¬ GenKill.selfLoopGraph.Participates .forward 3 := by
    rintro part
    have fed := part.fed
    revert fed
    decide
  obtain ⟨idle, -, mem, runs⟩ :=
    idle_nodes_untouched GenKill.selfLoopGraph (GenKill.selfLoop .forward .union)
  have last : 3 ∈ idle := (mem 3).2 ⟨by decide, apart⟩
  obtain ⟨s, changed, followed, spares, solves⟩ :=
    runs (fun k => if k = 0 then .jacobi else .gaussSeidel) 2
  obtain ⟨r, solved, again⟩ := solves .jacobi
  exact ⟨apart, s, changed, r, followed, spares.entry 3 last, solved, again.exit 3 last⟩

end Solver
end FlowAnalysis
