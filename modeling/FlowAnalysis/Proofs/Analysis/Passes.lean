import FlowAnalysis.Proofs.FlowGraph.Nesting
import FlowAnalysis.Proofs.Report
import FlowAnalysis.Proofs.Solver.PassBound

/-!
The passes that programs take. Main statement: with Gauss-Seidel passes, each analysis of a program
takes at most two passes more than its loops are nested deep.
-/
namespace FlowAnalysis

variable {s : Statement} {g : FlowGraph}

theorem Analysis.report_passes_le {α : Type} [DecidableEq α] (a : Analysis α)
    (built : FlowGraph.build s = .ok g) {config : Config} (inPlace : config.strategy = .gaussSeidel)
    (fact : α → Fact) :
    ∃ r, a.report g config fact = .ok r ∧ r.passes ≤ s.loopDepth + 2 := by
  obtain ⟨k, quiet, results, solved, passes, -⟩ := Solver.solve_eq_sweeps g a.problem .gaussSeidel
  have bound : k ≤ s.loopDepth + 1 :=
    quiet.le_of_laps rfl (fun _ _ => FlowGraph.precedes_or_retreats built)
      fun _ _ _ => FlowGraph.laps_retreats_le built
  refine ⟨.ofResults config.kind g results fun s => (a.holding s).map fact, ?_, ?_⟩
  · rw [report, solve, inPlace, solved]
    rfl
  · exact passes.trans_le (Nat.succ_le_succ bound)

/-- Every analysis of a program comes to rest after as many passes as its loops are nested deep, one
for the rest of the program, and one that finds nothing to change. -/
theorem Statement.analyze_passes_le (built : FlowGraph.build s = .ok g) (kind : AnalysisKind)
    (scope : Scope) :
    ∃ r, s.analyze { kind, scope } = .ok r ∧ r.passes ≤ s.loopDepth + 2 := by
  have asked : ∃ r, g.analyze { kind, scope } = .ok r ∧ r.passes ≤ s.loopDepth + 2 := by
    cases kind with
    | availableExprs => exact (g.availableExprs scope).report_passes_le built rfl _
    | reachingDefs => exact g.reachingDefs.report_passes_le built rfl _
    | liveVariables => exact g.liveVariables.report_passes_le built rfl _
  obtain ⟨r, asked, bound⟩ := asked
  exact ⟨r, analyze_of_build built asked, bound⟩

theorem Statement.analyze_passes_le_countdown :
    FlowGraph.build .countdown = .ok (FlowGraph.ofStatement .countdown) ∧
      ∃ r, Statement.countdown.analyze { kind := .liveVariables } = .ok r ∧ r.passes ≤ 3 :=
  ⟨FlowGraph.build_countdown,
    Statement.analyze_passes_le FlowGraph.build_countdown .liveVariables .topLevel⟩

end FlowAnalysis
