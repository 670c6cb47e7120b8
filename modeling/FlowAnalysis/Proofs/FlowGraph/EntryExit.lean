import FlowAnalysis.Proofs.FlowGraph.Grouping
import FlowAnalysis.Proofs.Statement.Sites

/-!
Entry and exit. Main statement: every node of a program's graph stands between the entry and the
exit, nothing but the exit is left without a successor, and nothing is without a predecessor but an
entry that tests no loop; so no report on a program warns of anything.
-/
namespace FlowAnalysis

/-- The report on an analysis in which every node takes part has no warning. -/
theorem Analysis.warnings_of_report {α : Type} [DecidableEq α] {a : Analysis α} {g : FlowGraph}
    {config : Config} {fact : α → Fact} {r : Report} (all : g.idleNodes a.direction = [])
    (reported : a.report g config fact = .ok r) : r.warnings = [] := by
  rw [report] at reported
  cases solved : a.solve g config.strategy with
  | error f =>
    rw [solved] at reported
    cases reported
  | ok results =>
    rw [solved] at reported
    cases reported
    calc results.warnings
        = (g.idleNodes a.direction).filterMap fun n => .unreachable <$> g.label? n :=
          Solver.warnings_of_solve solved
      _ = [] := by rw [all, List.filterMap_nil]

namespace FlowGraph

variable {s : Statement} {g : FlowGraph} {n : Nat}

/-- Where every node takes part, no report on the program has a warning. -/
theorem warnings_of_analyze {config : Config} {r : Report} (built : build s = .ok g)
    (all : ∀ d, g.idleNodes d = []) (analyzed : s.analyze config = .ok r) : r.warnings = [] := by
  rw [Statement.analyze, built] at analyzed
  replace analyzed : (g.analyze config).mapError Failure.fault = .ok r := analyzed
  cases reported : g.analyze config with
  | error f =>
    rw [reported] at analyzed
    cases analyzed
  | ok found =>
    rw [reported] at analyzed
    cases analyzed
    obtain ⟨kind, strategy, scope⟩ := config
    cases kind with
    | availableExprs =>
      exact Analysis.warnings_of_report (a := g.availableExprs scope) (all _) reported
    | reachingDefs => exact Analysis.warnings_of_report (a := g.reachingDefs) (all _) reported
    | liveVariables => exact Analysis.warnings_of_report (a := g.liveVariables) (all _) reported

section Built

variable (built : build s = .ok g)
include built

theorem participants_of_build (d : Direction) : g.participants d = .full g.nodeCount := by
  refine BitSet.ext_mem size_participants fun n => ?_
  rw [mem_participants, BitSet.mem_full]
  exact ⟨fun h => (participates_iff.1 h).1, participates_of_build built d⟩

theorem idleNodes_of_build (d : Direction) : g.idleNodes d = [] := by
  refine List.filter_eq_nil_iff.2 fun n hn => ?_
  have part := mem_participants.2 (participates_of_build built d (mem_nodeIds.1 hn))
  simpa using part

/-- Nothing but the exit is left without a successor. -/
theorem successors_eq_nil_iff (lt : n < g.nodeCount) : g.successors n = [] ↔ n = g.exit := by
  constructor
  · intro none
    exact (participates_of_build built .backward lt).fed.resolve_right (absurd none)
  · rintro rfl
    obtain ⟨-, rfl⟩ := build_eq_ok.1 built
    refine List.eq_nil_iff_forall_not_mem.2 fun m step => ?_
    exact Nat.lt_irrefl s.size (lt_of_step_ofStatement step)

theorem predecessors_ne_nil (lt : n < g.nodeCount) (inner : n ≠ g.entry) :
    g.predecessors n ≠ [] :=
  (participates_of_build built .forward lt).fed.resolve_left inner

/-- The body of a loop leads back to the test. -/
theorem exists_step_of_loop {c : Expr} {body : Statement} {next : Nat}
    (mem : ⟨n, .loop c body, next⟩ ∈ s.sites 0 s.size) :
    ∃ m, n < m ∧ m < n + 1 + body.size ∧ g.Step m n := by
  have ends : n + 1 + body.size ≤ s.size := by
    have bounds := Statement.loops_bounds ((s.mem_loops_iff 0 s.size).2 ⟨c, body, next, mem, rfl⟩)
    omega
  obtain ⟨accepted, rfl⟩ := build_eq_ok.1 built
  obtain ⟨-, wired⟩ := (wired_ofStatement accepted).site mem
  have pos : 0 < body.size := wired.size_pos
  have inside : n + 1 < (ofStatement s).nodeCount := by
    rw [nodeCount_ofStatement]
    omega
  -- the walk from the body to the exit leaves the body, which it can do at the test alone
  obtain ⟨-, ns, walk⟩ := participates_of_build built .backward inside
  have beyond : ¬ (n + 1 ≤ s.size ∧ s.size < n + 1 + body.size) := by omega
  obtain ⟨-, m, k, -, -, -, -, within, step, out, -⟩ :=
    walk.firstOutside (P := fun x => n + 1 ≤ x ∧ x < n + 1 + body.size) (by omega) beyond
  obtain rfl : k = n := (wired.closed within.1 within.2 step).resolve_left out
  exact ⟨m, within.1, within.2, step⟩

/-- Something leads back to an entry that tests a loop, and to no other. -/
theorem predecessors_entry : g.predecessors g.entry ≠ [] ↔
    ∃ c body, s.points[g.entry]? = some (.loop c body) := by
  constructor
  · intro some
    obtain ⟨m, mem⟩ := List.exists_mem_of_ne_nil _ some
    obtain ⟨accepted, rfl⟩ := build_eq_ok.1 built
    have step : (ofStatement s).Step m 0 := Digraph.step_iff_mem_predecessors.2 mem
    have point := lt_of_step_ofStatement step
    obtain ⟨e, loop, -⟩ := (wired_ofStatement accepted).loop_of_back (by omega) step
      (Nat.le_refl 0) (Nat.zero_le m) (by omega)
    obtain ⟨c, body, next, site, -⟩ := (s.mem_loops_iff 0 s.size).1 loop
    exact ⟨c, body, (Statement.getElem?_points_iff s.size).2 ⟨next, site⟩⟩
  · rintro ⟨c, body, starts⟩
    obtain ⟨next, site⟩ := (Statement.getElem?_points_iff s.size).1 starts
    obtain ⟨m, -, -, step⟩ := exists_step_of_loop built site
    exact List.ne_nil_of_mem (Digraph.step_iff_mem_predecessors.1 step)

/-- Walks lead from the entry to every node and from there to the exit, and `reachable` and
`reachesExit` have all nodes. The exit alone has no successor; every node has a predecessor, but the
entry only where it tests a loop. No report on the program has a warning. -/
theorem single_entry_and_exit :
    (∀ n < g.nodeCount, (∃ ns, Walk g.Step g.entry ns n) ∧ ∃ ns, Walk g.Step n ns g.exit) ∧
      g.reachable = .full g.nodeCount ∧ g.reachesExit = .full g.nodeCount ∧
      g.entry < g.nodeCount ∧ g.exit < g.nodeCount ∧
      (∀ n < g.nodeCount, g.successors n = [] ↔ n = g.exit) ∧
      (∀ n < g.nodeCount, n ≠ g.entry → g.predecessors n ≠ []) ∧
      (g.predecessors g.entry ≠ [] ↔ ∃ c body, s.points[g.entry]? = some (.loop c body)) ∧
      ∀ config, ∃ r, s.analyze config = .ok r ∧ r.warnings = [] := by
  refine ⟨fun n lt => ⟨?_, ?_⟩, participants_of_build built .forward,
    participants_of_build built .backward, entry_lt built, g.exit_lt,
    fun n lt => successors_eq_nil_iff built lt, fun n lt => predecessors_ne_nil built lt,
    predecessors_entry built, fun config => ?_⟩
  · exact (participates_of_build built .forward lt).2
  · exact (participates_of_build built .backward lt).2
  · obtain ⟨r, analyzed⟩ := Statement.exists_analyze built config
    exact ⟨r, analyzed, warnings_of_analyze built (idleNodes_of_build built) analyzed⟩

end Built

/-- The entry of the program tests a loop, to which the last point of the loop leads back. -/
theorem single_entry_and_exit_countdown :
    build .countdown = .ok (ofStatement .countdown) ∧
      (ofStatement .countdown).reachable = .full 4 ∧
      (ofStatement .countdown).reachesExit = .full 4 ∧
      (ofStatement .countdown).successors 2 ≠ [] ∧ (ofStatement .countdown).successors 3 = [] ∧
      (ofStatement .countdown).predecessors 1 ≠ [] ∧
      (ofStatement .countdown).predecessors 0 ≠ [] ∧
      ∀ config, ∃ r, Statement.countdown.analyze config = .ok r ∧ r.warnings = [] := by
  obtain ⟨-, reached, reaching, -, exit, last, fed, loops, silent⟩ :=
    single_entry_and_exit build_countdown
  have count : (ofStatement .countdown).nodeCount = 4 := nodeCount_ofStatement
  rw [count] at reached reaching exit last fed
  exact ⟨build_countdown, reached, reaching, mt (last 2 (by decide)).1 (by decide),
    (last 3 exit).2 rfl, fed 1 (by decide) (by decide), loops.2 ⟨_, _, rfl⟩, silent⟩

end FlowGraph
end FlowAnalysis
