import FlowAnalysis.Analysis.LiveVariables
import FlowAnalysis.Analysis.AvailableExprs
import FlowAnalysis.Analysis.ReachingDefs
import FlowAnalysis.Proofs.Solver.MeetOverWalks
import FlowAnalysis.Proofs.Solver.Schedule

/-!
Descent: from the top, passes take states down the order and never below the solution. Main
statement: this holds of each pass of every schedule, at every node, on entry and on exit.
-/
namespace FlowAnalysis

variable {p : GenKill} {g : FlowGraph} {schedule : Nat → Strategy} {order : List Nat} {k n : Nat}

namespace GenKill

section Top

variable (top : p.initial = p.confluence.top p.size)
  (visits : ∀ n, n ∈ order ↔ g.Participates p.direction n) (nodup : order.Nodup)
include top visits nodup

/-- Each pass goes down. -/
theorem sweeps_succ_belowAt : (p.sweeps g schedule order (p.initialValuation g) (k + 1)).BelowAt
    p.confluence (p.sweeps g schedule order (p.initialValuation g) k) n := by
  have start := not_moved_initialValuation (p := p) (g := g)
  by_cases hn : n ∈ order
  · intro i
    constructor
    · intro told
      cases k with
      | zero =>
        -- before the first pass only the boundary node tells anything, and it goes on telling that
        obtain ⟨inner, boundary⟩ := (tells_initialValuation top).1 told
        obtain ⟨s, now, -⟩ := exists_seen_sweeps visits nodup start schedule 0 hn
        rw [now.1]
        exact tells_inState.2 (Or.inl ⟨inner, boundary⟩)
      | succ k =>
        rw [← moved_iff_tells top] at told ⊢
        exact moved_before_sweeps visits nodup start hn told
    · rw [← moved_iff_tells top, ← moved_iff_tells top]
      exact (sweep_drifts (fun n => (visits n).1) nodup
        (drifting_sweeps visits nodup start schedule k)).1 n i
  · exact Valuation.SameAt.belowAt (sweepFrom_sameAt hn)

/-- A settled valuation with the initial states at idle nodes is below every run. -/
theorem Settled.belowAt_sweeps {w : Valuation p.size} (h : p.Settled g w)
    (idle : ∀ n ∉ order, w.SameAt (p.initialValuation g) n) :
    w.BelowAt p.confluence (p.sweeps g schedule order (p.initialValuation g) k) n := by
  have start := not_moved_initialValuation (p := p) (g := g)
  by_cases hn : n ∈ order
  · have part := (visits n).1 hn
    intro i
    constructor
    · intro told
      rw [(h n part).1]
      cases k with
      | zero => exact tells_inState.2 (Or.inl ((tells_initialValuation top).1 told))
      | succ k =>
        obtain ⟨s, now, -, seen⟩ := exists_seen_sweeps visits nodup start schedule k hn
        rw [now.1, ← moved_iff_tells top] at told
        rw [← moved_iff_tells top]
        exact moved_before_image part (seen.trans (sweeps_trails visits start h)) told
    · rw [← moved_iff_tells top, ← moved_iff_tells top]
      exact sweeps_trails visits start h n i
  · exact ((idle n hn).trans (sweeps_sameAt hn).symm).belowAt

end Top

end GenKill

namespace Solver

/-- What a schedule has reached after each of its passes. -/
theorem follow_shows (g : FlowGraph) (p : GenKill) (schedule : Nat → Strategy) (k : Nat) :
    ∃ s changed, (new g p).follow schedule k = .ok (s, changed) ∧
      s.results.Shows g.nodeCount p.direction
        (p.sweeps g schedule (g.visitOrder p.direction) (p.initialValuation g) k) := by
  obtain ⟨strategy, changed, followed⟩ := exists_follow_eq g p schedule k
  exact ⟨_, changed, followed, results_reached (s := (new g p).withStrategy strategy) _ k⟩

/-- From the start, every pass of every schedule leaves each state below or where it was, and never
below the solution. -/
def Descends (g : FlowGraph) (p : GenKill) : Prop :=
  ∀ (schedule : Nat → Strategy) (strategy : Strategy) (k : Nat), ∃ s t r before after,
    (new g p).follow schedule k = .ok (s, before) ∧
    (new g p).follow schedule (k + 1) = .ok (t, after) ∧
    ((new g p).withStrategy strategy).solve = .ok r ∧
    t.results.Below p.confluence s.results ∧ r.Below p.confluence t.results

theorem descends_of_top (g : FlowGraph) (p : GenKill)
    (top : p.initial = p.confluence.top p.size) : Descends g p := by
  intro schedule strategy k
  have visits := FlowGraph.mem_visitOrder_iff (g := g) (d := p.direction)
  have nodup : (g.visitOrder p.direction).Nodup := FlowGraph.nodup_visitOrder
  obtain ⟨s, before, atFirst, showsFirst⟩ := follow_shows g p schedule k
  obtain ⟨t, after, atNext, showsNext⟩ := follow_shows g p schedule (k + 1)
  obtain ⟨l, quiet, r, solved, -, shows⟩ := solve_eq_sweeps g p strategy
  refine ⟨s, t, r, before, after, atFirst, atNext, solved, ?_, ?_⟩
  · exact showsNext.below showsFirst fun n _ => GenKill.sweeps_succ_belowAt top visits nodup
  · exact shows.below showsNext fun n _ => (quiet.settled visits nodup).2.belowAt_sweeps top visits
      nodup fun _ => GenKill.sweeps_sameAt

/-- States only descend, in every problem that starts at the top, and so in every analysis. -/
theorem passes_descend (g : FlowGraph) :
    (∀ p : GenKill, p.initial = p.confluence.top p.size → Descends g p) ∧
      (∀ scope, Descends g (g.availableExprs scope).problem) ∧
      Descends g g.reachingDefs.problem ∧ Descends g g.liveVariables.problem :=
  ⟨descends_of_top g, fun _ => descends_of_top g _ rfl, descends_of_top g _ rfl,
    descends_of_top g _ rfl⟩

theorem passes_descend_selfLoop :
    (GenKill.selfLoop .backward .union).initial = Confluence.union.top 2 ∧
      Descends GenKill.selfLoopGraph (GenKill.selfLoop .backward .union) :=
  ⟨rfl, (passes_descend GenKill.selfLoopGraph).1 _ rfl⟩

end Solver
end FlowAnalysis
