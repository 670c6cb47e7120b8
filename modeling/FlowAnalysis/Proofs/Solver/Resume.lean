import FlowAnalysis.Proofs.GenKill.Squeeze
import FlowAnalysis.Proofs.Solver.MeetOverWalks

/-!
Resumed solvers. Main statement: from any states above the solution a solver reaches the solution
again, whatever the kind of its passes, and from the solution itself its first pass changes nothing.
-/
namespace FlowAnalysis

variable {p : GenKill} {g : FlowGraph} {schedule : Nat → Strategy} {order : List Nat} {k : Nat}

namespace GenKill

/-- A run from above the valuation where the runs from the start settle settles there too. -/
theorem exists_firstQuiet_of_above (top : p.initial = p.confluence.top p.size)
    (visits : ∀ n, n ∈ order ↔ g.Participates p.direction n) (nodup : order.Nodup)
    {w : Valuation p.size}
    (settled : p.Settled g (p.sweeps g schedule order (p.initialValuation g) k))
    (above : ∀ n, (p.sweeps g schedule order (p.initialValuation g) k).BelowAt p.confluence w n)
    (beyond : ∀ n, g.nodeCount ≤ n →
      w.SameAt (p.sweeps g schedule order (p.initialValuation g) k) n) (again : Nat → Strategy) :
    ∃ l ≤ order.length * p.size + 2, p.FirstQuiet g again order w l ∧
      p.sweeps g again order w l = p.sweeps g schedule order (p.initialValuation g) k := by
  have start := not_moved_initialValuation (p := p) (g := g)
  obtain ⟨m, le, quiet⟩ := exists_firstQuiet visits nodup start again
  have same := sweeps_eq_of_settled visits start settled (quiet.settled visits nodup).2
  rw [same] at above beyond ⊢
  have behind : p.Trails w (p.sweeps g again order (p.initialValuation g) m) := by
    intro n i moved
    rw [moved_iff_tells top] at moved ⊢
    exact (above n i).2 moved
  have idle : ∀ n ∉ order, w.SameAt (p.sweeps g again order (p.initialValuation g) m) n := by
    intro n hn
    by_cases lt : n < g.nodeCount
    · obtain ⟨before, after⟩ := initialValuation_of_idle lt fun part => hn ((visits n).2 part)
      have kept : (p.sweeps g again order (p.initialValuation g) m).SameAt
          (p.initialValuation g) n := sweeps_sameAt hn
      exact (above n).sameAt (kept.1.trans (before.trans top)) (kept.2.trans (after.trans top))
    · exact beyond n (Nat.le_of_not_lt lt)
  obtain ⟨l, next, first, there⟩ := quiet.squeeze visits nodup start behind idle
  exact ⟨l, by omega, first, there⟩

end GenKill

namespace Solver

theorem cellsOf_eq {size count : Nat} {d : Direction} {v : Valuation size} {r : Results BitSet}
    (h : r.Shows count d v) : cellsOf d r = v.cells count := by
  cases d with
  | forward =>
    rw [cellsOf, h.entry, h.exit]
    apply Array.ext <;> simp [Valuation.cells, Valuation.cell, Valuation.entry, Valuation.exit]
  | backward =>
    rw [cellsOf, h.entry, h.exit]
    apply Array.ext <;> simp [Valuation.cells, Valuation.cell, Valuation.entry, Valuation.exit]

section Resume

variable {r : Results BitSet} {v : Valuation p.size} {strategy : Strategy}
  (h : r.Shows g.nodeCount p.direction v)
include h

/-- Going on from results is going on from the valuation that they show. -/
theorem resume_eq_reached : (resume g p r).withStrategy strategy =
    ((new g p).withStrategy strategy).reached v 0 := by
  have count : r.nodeCount = g.nodeCount := by rw [Results.nodeCount, h.entry, Array.size_ofFn]
  rw [resume, if_pos count, cellsOf_eq h]
  rfl

theorem solve_resume
    (quiet : p.FirstQuiet g (fun _ => strategy) (g.visitOrder p.direction) v k)
    (le : k ≤ (g.visitOrder p.direction).length * p.size + 2) :
    ∃ t, ((resume g p r).withStrategy strategy).solve = .ok t ∧
      t.Shows g.nodeCount p.direction
        (p.sweeps g (fun _ => strategy) (g.visitOrder p.direction) v k) := by
  let s := (new g p).withStrategy strategy
  obtain ⟨t, solved, -, shows⟩ := solve_reached (s := s) ready_new quiet
    (Nat.lt_of_le_of_lt le s.add_lt_limit) 0
  exact ⟨t, (congrArg solve (resume_eq_reached h)).trans solved, shows⟩

/-- A pass from results that evaluation leaves as they are changes nothing. -/
theorem pass_resume (settled : p.Settled g v) :
    ((resume g p r).withStrategy strategy).pass =
      .ok (((new g p).withStrategy strategy).reached v 1, false) := by
  let s := (new g p).withStrategy strategy
  have step : (s.reached v 0).pass = .ok (s.reached v 1, false) :=
    pass_settled ready_new (fun n => (FlowGraph.mem_visitOrder_iff n).1) settled 0
  exact (congrArg pass (resume_eq_reached h)).trans step

end Resume

/-- From any states above the solution, and those below the top all are, `solve` finds the solution
again, whatever the kind of its passes; a pass from the solution changes nothing; and results for
another number of nodes are ignored. -/
theorem resume_settles_alike (g : FlowGraph) (p : GenKill)
    (top : p.initial = p.confluence.top p.size) (strategy again : Strategy) :
    ∃ q, ((new g p).withStrategy strategy).solve = .ok q ∧
      (∀ r, q.Below p.confluence r → ∃ t, ((resume g p r).withStrategy again).solve = .ok t ∧
        t.entryStates = q.entryStates ∧ t.exitStates = q.exitStates) ∧
      (∃ s, ((resume g p q).withStrategy again).pass = .ok (s, false) ∧
        s.cells = (resume g p q).cells ∧
        s.entryStates = q.entryStates ∧ s.exitStates = q.exitStates) ∧
      ∀ r, r.nodeCount ≠ g.nodeCount → resume g p r = new g p := by
  have visits := FlowGraph.mem_visitOrder_iff (g := g) (d := p.direction)
  have nodup : (g.visitOrder p.direction).Nodup := FlowGraph.nodup_visitOrder
  obtain ⟨k, quiet, q, solved, -, shows⟩ := solve_eq_sweeps g p strategy
  have settled := (quiet.settled visits nodup).2
  refine ⟨q, solved, ?_, ?_, fun r other => if_neg other⟩
  · intro r below
    obtain ⟨w, showsAbove, above, beyond⟩ := shows.exists_above below
    obtain ⟨l, le, first, there⟩ := GenKill.exists_firstQuiet_of_above top visits nodup settled
      above beyond fun _ => again
    obtain ⟨t, solvedAgain, showsAgain⟩ := solve_resume showsAbove first le
    exact ⟨t, solvedAgain, (there ▸ showsAgain).states_eq shows⟩
  · refine ⟨_, pass_resume shows settled, ?_, ?_⟩
    · have resumed : (resume g p q).withStrategy again = _ := resume_eq_reached shows
      exact (congrArg cells resumed).symm
    · exact (results_reached (s := (new g p).withStrategy again) _ 1).states_eq shows

theorem resume_settles_alike_selfLoop :
    (GenKill.selfLoop .forward .intersection).initial = Confluence.intersection.top 2 ∧
      ∃ q r t, ((new GenKill.selfLoopGraph (GenKill.selfLoop .forward .intersection)).withStrategy
          .jacobi).solve = .ok q ∧
        r.entryStates = Array.replicate 4 (.ofBits 3#2) ∧ q.Below .intersection r ∧
        ((resume GenKill.selfLoopGraph (GenKill.selfLoop .forward .intersection) r).withStrategy
          .gaussSeidel).solve = .ok t ∧
        t.entryStates = q.entryStates ∧ t.exitStates = q.exitStates := by
  obtain ⟨q, solved, again, -⟩ := resume_settles_alike GenKill.selfLoopGraph
    (GenKill.selfLoop .forward .intersection) rfl .jacobi .gaussSeidel
  obtain ⟨k, -, q', solved', -, shows⟩ := solve_eq_sweeps GenKill.selfLoopGraph
    (GenKill.selfLoop .forward .intersection) .jacobi
  obtain rfl : q = q' := Except.ok.inj (solved.symm.trans solved')
  let r : Results BitSet := ⟨.replicate 4 (.ofBits 3#2), .replicate 4 (.ofBits 3#2), #[], 0, []⟩
  have showsTop : r.Shows 4 .forward ⟨fun _ => 3#2, fun _ => 3#2⟩ := ⟨rfl, rfl⟩
  have below : q.Below .intersection r := shows.below showsTop fun n _ i =>
    ⟨fun told => absurd told Confluence.not_tells_top,
      fun told => absurd told Confluence.not_tells_top⟩
  obtain ⟨t, solvedAgain, same⟩ := again r below
  exact ⟨rfl, q, r, t, solved, rfl, below, solvedAgain, same⟩

end Solver
end FlowAnalysis
