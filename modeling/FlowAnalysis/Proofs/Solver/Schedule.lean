import FlowAnalysis.Proofs.Solver.Settling

/-!
Schedules: solvers whose passes are of a kind chosen anew for each. Main statement: whatever the
schedule and wherever the problem starts, a solver comes to rest within as many passes as there are
bits, and two more, always in the same states, and Gauss-Seidel passes alone take no longer than
Jacobi passes alone.
-/
namespace FlowAnalysis
namespace Solver

variable {g : FlowGraph} {p : GenKill} {schedule : Nat → Strategy} {k : Nat}

/-- The solver after `k` passes, the first of the kind `schedule 0`, and whether the last of them
changed any state. A solver that has made no pass may yet change. -/
def follow (s : Solver) (schedule : Nat → Strategy) : Nat → Except Fault (Solver × Bool)
  | 0 => .ok (s, true)
  | k + 1 => do
    let (t, _) ← s.follow schedule k
    (t.withStrategy (schedule k)).pass

/-- No pass of a schedule faults. -/
theorem follow_new (schedule : Nat → Strategy) (k : Nat) :
    (new g p).follow schedule (k + 1) =
      .ok (((new g p).withStrategy (schedule k)).reached
          (p.sweeps g schedule (g.visitOrder p.direction) (p.initialValuation g) (k + 1)) (k + 1),
        p.changes g schedule (g.visitOrder p.direction) (p.initialValuation g) k) := by
  induction k with
  | zero =>
    refine (congrArg (fun s => (s.withStrategy (schedule 0)).pass) new_eq_reached).trans ?_
    exact pass_reached (s := (new g p).withStrategy (schedule 0)) ready_new _ _
  | succ k ih =>
    rw [follow, ih]
    exact pass_reached (s := (new g p).withStrategy (schedule (k + 1))) ready_new _ _

/-- After any passes of a schedule a solver has the states of the run. -/
theorem exists_follow_eq (g : FlowGraph) (p : GenKill) (schedule : Nat → Strategy) (k : Nat) :
    ∃ strategy changed, (new g p).follow schedule k =
      .ok (((new g p).withStrategy strategy).reached
        (p.sweeps g schedule (g.visitOrder p.direction) (p.initialValuation g) k) k, changed) := by
  cases k with
  | zero => exact ⟨.gaussSeidel, true, congrArg (fun s => Except.ok (s, true)) new_eq_reached⟩
  | succ k => exact ⟨_, _, follow_new schedule k⟩

/-- From the start, every schedule comes to rest in the same states, within a number of passes that
participants and facts bound; and Gauss-Seidel passes alone come to rest no later than Jacobi passes
alone. -/
theorem schedules_settle_alike (g : FlowGraph) (p : GenKill) :
    ∃ entry exit : Array BitSet,
      (∀ schedule : Nat → Strategy, ∃ k ≤ (g.participants p.direction).count * p.size + 2, ∃ t,
        (new g p).follow schedule k = .ok (t, false) ∧
        (∀ j < k, ∃ u, (new g p).follow schedule j = .ok (u, true)) ∧
        t.entryStates = entry ∧ t.exitStates = exit) ∧
      ∃ r q, ((new g p).withStrategy .gaussSeidel).solve = .ok r ∧
        ((new g p).withStrategy .jacobi).solve = .ok q ∧ r.passes ≤ q.passes ∧
        r.entryStates = entry ∧ r.exitStates = exit ∧
        q.entryStates = entry ∧ q.exitStates = exit := by
  have visits := FlowGraph.mem_visitOrder_iff (g := g) (d := p.direction)
  have nodup : (g.visitOrder p.direction).Nodup := FlowGraph.nodup_visitOrder
  have start := GenKill.not_moved_initialValuation (p := p) (g := g)
  obtain ⟨l, slow, q, solvedJacobi, passesJacobi, showsJacobi⟩ := solve_eq_sweeps g p .jacobi
  obtain ⟨k, fast, r, solved, passes, shows⟩ := solve_eq_sweeps g p .gaussSeidel
  have settled := (slow.settled visits nodup).2
  -- all runs settle where that of Jacobi passes alone does
  have same := GenKill.sweeps_eq_of_settled visits start (fast.settled visits nodup).2 settled
  rw [same] at shows
  refine ⟨_, _, fun schedule => ?_, r, q, solved, solvedJacobi, ?_,
    shows.entry, shows.exit, showsJacobi.entry, showsJacobi.exit⟩
  · obtain ⟨m, le, quiet⟩ := GenKill.exists_firstQuiet visits nodup start schedule
    obtain ⟨whole, rest⟩ := quiet.settled visits nodup
    have final := whole.trans (GenKill.sweeps_eq_of_settled visits start rest settled)
    have states := results_reached (s := (new g p).withStrategy (schedule m))
      (p.sweeps g schedule (g.visitOrder p.direction) (p.initialValuation g) (m + 1)) (m + 1)
    rw [final] at states
    refine ⟨m + 1, ?_, _, ?_, ?_, states.entry, states.exit⟩
    · rw [← FlowGraph.length_visitOrder]
      omega
    · rw [follow_new, quiet.quiet, final]
    · intro j lt
      cases j with
      | zero => exact ⟨_, rfl⟩
      | succ j =>
        rw [follow_new, quiet.loud j (Nat.lt_of_succ_lt_succ lt)]
        exact ⟨_, rfl⟩
  · rw [passes, passesJacobi]
    exact Nat.succ_le_succ (fast.le_jacobi visits nodup start slow)

end Solver
end FlowAnalysis
