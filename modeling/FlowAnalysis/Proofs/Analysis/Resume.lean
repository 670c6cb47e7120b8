import FlowAnalysis.Config
import FlowAnalysis.Proofs.FlowGraph.LoopFree
import FlowAnalysis.Proofs.Solver.Descent
import FlowAnalysis.Proofs.Solver.Mismatch

/-!
Results of one program as the start of an analysis of another. Main statement: a resumed solver
completes all passes if the graphs have different numbers of nodes, or the analyses equally many
facts, or if the second program has no loop and the first pass is a Gauss-Seidel pass; otherwise
its first pass faults.
-/
namespace FlowAnalysis
namespace FlowGraph

variable {t : Statement} {f g : FlowGraph}

/-- The problem that an analysis of a graph solves. -/
def problem (g : FlowGraph) (kind : AnalysisKind) (scope : Scope) : GenKill :=
  match kind with
  | .availableExprs => (g.availableExprs scope).problem
  | .reachingDefs => g.reachingDefs.problem
  | .liveVariables => g.liveVariables.problem

theorem direction_problem (f g : FlowGraph) (kind : AnalysisKind) (scope : Scope) :
    (f.problem kind scope).direction = (g.problem kind scope).direction := by
  cases kind <;> rfl

/-- Results for `f` do no harm to a solver for `g`, the graph of `t`, that starts with a pass of the
kind `first`. -/
inductive Harmless (f g : FlowGraph) (t : Statement) (kind : AnalysisKind) (scope : Scope)
    (first : Strategy) : Prop
  /-- They are for another number of nodes, and ignored. -/
  | ignored (count : f.nodeCount ≠ g.nodeCount)
  /-- They are for the same number of facts. -/
  | fits (size : (f.problem kind scope).size = (g.problem kind scope).size)
  /-- The first pass evaluates every node after its sources. -/
  | forgotten (inPlace : first = .gaussSeidel) (straight : t.loopDepth = 0)

section Resumed

variable {kind : AnalysisKind} {scope : Scope} {r : Results BitSet}
  {v : Valuation (f.problem kind scope).size} (built : build t = .ok g)
  (shows : r.Shows f.nodeCount (f.problem kind scope).direction v)
include shows

/-- Results for another number of nodes are ignored. -/
theorem resume_of_ne (count : f.nodeCount ≠ g.nodeCount) :
    Solver.resume g (g.problem kind scope) r = Solver.new g (g.problem kind scope) := by
  have other : r.nodeCount ≠ g.nodeCount := by
    rw [Results.nodeCount, shows.entry, Array.size_ofFn]
    exact count
  rw [Solver.resume, if_neg other]

include built

theorem follow_resume_of_harmless (schedule : Nat → Strategy)
    (harmless : f.Harmless g t kind scope (schedule 0)) (k : Nat) : ∃ u changed,
      (Solver.resume g (g.problem kind scope) r).follow schedule k = .ok (u, changed) := by
  by_cases count : f.nodeCount = g.nodeCount
  · rw [count, direction_problem f g] at shows
    cases harmless with
    | ignored other => exact absurd count other
    | fits size =>
      obtain ⟨w, changed, first⟩ := Solver.pass_resume_fits shows size (schedule 0)
      exact Solver.follow_of_first first k
    | forgotten inPlace straight =>
      obtain ⟨changed, first⟩ := Solver.pass_resume_forgets shows
        (fun n => participates_of_build built _) ((forall_precedes_iff built).2 straight)
      rw [← inPlace] at first
      exact Solver.follow_of_first first k
  · rw [resume_of_ne shows count]
    obtain ⟨u, changed, followed, -⟩ := Solver.follow_shows g (g.problem kind scope) schedule k
    exact ⟨u, changed, followed⟩

theorem pass_resume_of_not_harmless (first : Strategy)
    (harm : ¬ f.Harmless g t kind scope first) :
    ((Solver.resume g (g.problem kind scope) r).withStrategy first).pass =
      .error .universeMismatch := by
  have count : f.nodeCount = g.nodeCount := by
    by_contra other
    exact harm (.ignored other)
  rw [count, direction_problem f g] at shows
  refine Solver.pass_resume_mismatch shows (fun size => harm (.fits size)) ?_
  cases first with
  | gaussSeidel =>
    have loops : ¬ t.loopDepth = 0 := fun straight => harm (.forgotten rfl straight)
    rw [← forall_precedes_iff built] at loops
    push Not at loops
    obtain ⟨m, n, feeds, late⟩ := loops
    exact ⟨m, n, feeds, participates_of_build built _ feeds.lt.2, fun _ => late⟩
  | jacobi =>
    obtain ⟨m, n, feeds, part⟩ := exists_feeds built (g.problem kind scope).direction
    exact ⟨m, n, feeds, part, nofun⟩

end Resumed

/-- A solver that goes on from the results for another graph completes all its passes just when
these are harmless; otherwise sets of different universes meet in its first pass. -/
theorem resume_completes_iff (f : FlowGraph) (built : build t = .ok g) (kind : AnalysisKind)
    (scope : Scope) (strategy : Strategy) (schedule : Nat → Strategy) :
    ∃ r, ((Solver.new f (f.problem kind scope)).withStrategy strategy).solve = .ok r ∧
      (f.nodeCount ≠ g.nodeCount →
        Solver.resume g (g.problem kind scope) r = Solver.new g (g.problem kind scope)) ∧
      ((∀ k, ∃ u changed,
          (Solver.resume g (g.problem kind scope) r).follow schedule k = .ok (u, changed)) ↔
        f.Harmless g t kind scope (schedule 0)) ∧
      ((Solver.resume g (g.problem kind scope) r).follow schedule 1 = .error .universeMismatch ↔
        ¬ f.Harmless g t kind scope (schedule 0)) := by
  obtain ⟨k, -, r, solved, -, shows⟩ := Solver.solve_eq_sweeps f (f.problem kind scope) strategy
  have completes := follow_resume_of_harmless built shows schedule
  have faults := pass_resume_of_not_harmless built shows (schedule 0)
  refine ⟨r, solved, resume_of_ne shows, ⟨fun completed => ?_, completes⟩,
    ⟨fun faulted harmless => ?_, faults⟩⟩
  · by_contra harm
    obtain ⟨u, changed, passed⟩ := completed 1
    cases passed.symm.trans (faults harm)
  · obtain ⟨u, changed, passed⟩ := completes harmless 1
    cases passed.symm.trans faulted

/-- A program with as many points as the countdown, and no expression. -/
def skips : Statement := .seq [.skip, .skip, .skip]

theorem not_harmless_skips {first : Strategy} : ¬ (ofStatement skips).Harmless
    (ofStatement .countdown) .countdown .availableExprs .topLevel first := by
  intro harmless
  cases harmless with
  | ignored count => exact absurd count (by decide)
  | fits size => exact absurd size (by decide)
  | forgotten inPlace straight => exact absurd straight (by decide)

theorem resume_completes_iff_skips : build .countdown = .ok (ofStatement .countdown) ∧
    ∃ r, ((Solver.new (ofStatement skips)
        ((ofStatement skips).problem .availableExprs .topLevel)).withStrategy .jacobi).solve =
        .ok r ∧
      (Solver.resume (ofStatement .countdown)
        ((ofStatement .countdown).problem .availableExprs .topLevel) r).follow
          (fun _ => .jacobi) 1 = .error .universeMismatch := by
  obtain ⟨r, solved, -, -, faults⟩ := resume_completes_iff (ofStatement skips) build_countdown
    .availableExprs .topLevel .jacobi fun _ => .jacobi
  exact ⟨build_countdown, r, solved, faults.2 not_harmless_skips⟩

/-- Going on from the results for three skips, the countdown faults. -/
theorem resume_faults_countdown :
    build skips = .ok (ofStatement skips) ∧ build .countdown = .ok (ofStatement .countdown) ∧
    ∃ r, ((Solver.new (ofStatement skips)
        ((ofStatement skips).problem .availableExprs .topLevel)).withStrategy
          .gaussSeidel).solve = .ok r ∧
      ((Solver.resume (ofStatement .countdown)
        ((ofStatement .countdown).problem .availableExprs .topLevel) r).withStrategy
          .gaussSeidel).pass = .error .universeMismatch := by
  obtain ⟨k, -, r, solved, -, shows⟩ := Solver.solve_eq_sweeps (ofStatement skips)
    ((ofStatement skips).problem .availableExprs .topLevel) .gaussSeidel
  exact ⟨build_eq_ok.2 ⟨by decide, rfl⟩, build_countdown, r, solved,
    pass_resume_of_not_harmless build_countdown shows .gaussSeidel not_harmless_skips⟩

end FlowGraph
end FlowAnalysis
