import FlowAnalysis.Proofs.GenKill.Run

/-!
Settling: every solver comes to rest. Main statement: `solve` never faults, its fuel suffices, and
it ends in a valuation that evaluation leaves as it is.
-/
namespace FlowAnalysis

namespace Valuation

variable {size : Nat}

/-- What holds on entry to node `n`. -/
def entry (v : Valuation size) : Direction → Nat → BitVec size
  | .forward => v.before
  | .backward => v.after

/-- What holds on exit from node `n`. -/
def exit (v : Valuation size) : Direction → Nat → BitVec size
  | .forward => v.after
  | .backward => v.before

end Valuation

/-- The states of `r` are those of `v` at the first `count` nodes. -/
structure Results.Shows {size : Nat} (r : Results BitSet) (count : Nat) (d : Direction)
    (v : Valuation size) : Prop where
  entry : r.entryStates = Array.ofFn fun n : Fin count => BitSet.ofBits (v.entry d n)
  exit : r.exitStates = Array.ofFn fun n : Fin count => BitSet.ofBits (v.exit d n)

/-- State for state, those of `r` stand below those of `q`. -/
structure Results.Below (c : Confluence) (r q : Results BitSet) : Prop where
  entry : c.BelowEach r.entryStates q.entryStates
  exit : c.BelowEach r.exitStates q.exitStates

namespace Results.Shows

variable {size count : Nat} {d : Direction} {c : Confluence} {v w : Valuation size}
  {r q : Results BitSet}

theorem states_eq (hr : r.Shows count d v) (hq : q.Shows count d v) :
    r.entryStates = q.entryStates ∧ r.exitStates = q.exitStates :=
  ⟨hr.entry.trans hq.entry.symm, hr.exit.trans hq.exit.symm⟩

theorem entryAt (h : r.Shows count d v) {n : Nat} (lt : n < count) :
    r.entryStates[n]? = some (.ofBits (v.entry d n)) := by
  rw [h.entry, Array.getElem?_ofFn, dif_pos lt]

theorem exitAt (h : r.Shows count d v) {n : Nat} (lt : n < count) :
    r.exitStates[n]? = some (.ofBits (v.exit d n)) := by
  rw [h.exit, Array.getElem?_ofFn, dif_pos lt]

/-- Where one valuation is below another, so are the states that show them. -/
theorem below (hr : r.Shows count d v) (hq : q.Shows count d w)
    (h : ∀ n < count, v.BelowAt c w n) : r.Below c q := by
  have before : ∀ n < count, c.Below (v.before n) (w.before n) := fun n lt =>
    Confluence.below_iff.2 fun i => (h n lt i).1
  have after : ∀ n < count, c.Below (v.after n) (w.after n) := fun n lt =>
    Confluence.below_iff.2 fun i => (h n lt i).2
  constructor
  · rw [hr.entry, hq.entry]
    cases d with
    | forward => exact Confluence.belowEach_ofFn before
    | backward => exact Confluence.belowEach_ofFn after
  · rw [hr.exit, hq.exit]
    cases d with
    | forward => exact Confluence.belowEach_ofFn after
    | backward => exact Confluence.belowEach_ofFn before

/-- States above those of a valuation are those of another one. -/
theorem exists_above (hr : r.Shows count d v) (h : r.Below c q) :
    ∃ w : Valuation size, q.Shows count d w ∧ (∀ n, v.BelowAt c w n) ∧
      ∀ n, count ≤ n → w.SameAt v n := by
  obtain ⟨x, entry, aboveEntry, beyondEntry⟩ :=
    Confluence.exists_of_belowEach (hr.entry ▸ h.entry)
  obtain ⟨y, exit, aboveExit, beyondExit⟩ := Confluence.exists_of_belowEach (hr.exit ▸ h.exit)
  simp only [Confluence.below_iff] at aboveEntry aboveExit
  cases d with
  | forward =>
    exact ⟨⟨x, y⟩, ⟨entry, exit⟩, fun n i => ⟨aboveEntry n i, aboveExit n i⟩,
      fun n le => ⟨beyondEntry n le, beyondExit n le⟩⟩
  | backward =>
    exact ⟨⟨y, x⟩, ⟨entry, exit⟩, fun n i => ⟨aboveExit n i, aboveEntry n i⟩,
      fun n le => ⟨beyondExit n le, beyondEntry n le⟩⟩

end Results.Shows

namespace GenKill

variable {p : GenKill} {g : FlowGraph}

/-- The valuation before the first pass. -/
def initialValuation (p : GenKill) (g : FlowGraph) : Valuation p.size where
  before := Function.update (fun _ => p.initial) (g.boundaryNode p.direction) p.boundary
  after _ := p.initial

theorem before_initialValuation {n : Nat} : (p.initialValuation g).before n =
    if n = g.boundaryNode p.direction then p.boundary else p.initial := by
  simp only [initialValuation, Function.update_apply]

theorem initialCells_eq :
    Solver.initialCells g p = (p.initialValuation g).cells g.nodeCount := by
  apply Array.ext
  · simp [Solver.initialCells, Valuation.cells]
  · intro n hn hn'
    by_cases start : n = g.boundaryNode p.direction
    · simp [Solver.initialCells, Valuation.cells, Valuation.cell, start,
        Array.getElem_modify, initialValuation]
    · simp [Solver.initialCells, Valuation.cells, Valuation.cell, start,
        Array.getElem_modify, initialValuation, Ne.symm start]

/-- Idle nodes have the initial value. -/
theorem initialValuation_of_idle {n : Nat} (lt : n < g.nodeCount)
    (idle : ¬ g.Participates p.direction n) : (p.initialValuation g).before n = p.initial ∧
      (p.initialValuation g).after n = p.initial := by
  have start : n ≠ g.boundaryNode p.direction := by
    rintro rfl
    exact idle (FlowGraph.participates_boundaryNode lt)
  rw [before_initialValuation, if_neg start]
  exact ⟨rfl, rfl⟩

/-- Before the first pass only the boundary node says anything. -/
theorem tells_initialValuation (top : p.initial = p.confluence.top p.size) {n i : Nat} :
    (p.confluence.Tells ((p.initialValuation g).before n) i →
      n = g.boundaryNode p.direction ∧ p.confluence.Tells p.boundary i) ∧
      ¬ p.confluence.Tells ((p.initialValuation g).after n) i := by
  constructor
  · intro told
    rw [before_initialValuation] at told
    by_cases start : n = g.boundaryNode p.direction
    · rw [if_pos start] at told
      exact ⟨start, told⟩
    · rw [if_neg start, top] at told
      exact absurd told Confluence.not_tells_top
  · intro told
    rw [initialValuation, top] at told
    exact absurd told Confluence.not_tells_top

theorem not_moved_initialValuation (n i : Nat) :
    ¬ p.Moved ((p.initialValuation g).after n) i := not_moved_initial

end GenKill

namespace Solver

variable {s : Solver}

/-- The solver with the states of `v` after `k` passes. -/
def reached (s : Solver) (v : Valuation s.problem.size) (k : Nat) : Solver :=
  { s with cells := v.cells s.flow.nodeCount, passes := k }

/-- A pass visits nodes of the graph, each once. -/
structure Ready (s : Solver) : Prop where
  valid : ∀ n ∈ s.order, n < s.flow.nodeCount
  nodup : s.order.Nodup

theorem pass_reached (ready : s.Ready) (v : Valuation s.problem.size) (k : Nat) :
    (s.reached v k).pass =
      .ok (s.reached (s.problem.sweep s.flow s.strategy s.order v) (k + 1),
        GenKill.differs s.order v (s.problem.sweep s.flow s.strategy s.order v)) := by
  obtain ⟨flow, p, order, cells, strategy, passes⟩ := s
  cases strategy with
  | gaussSeidel =>
    simp only [pass, reached, GenKill.gaussSeidelPass_cells ready.valid ready.nodup]
    rfl
  | jacobi =>
    simp only [pass, reached, GenKill.jacobiPass_cells ready.valid ready.nodup]
    rfl

theorem pass_settled (ready : s.Ready)
    (visits : ∀ n ∈ s.order, s.flow.Participates s.problem.direction n)
    {v : Valuation s.problem.size} (h : s.problem.Settled s.flow v) (k : Nat) :
    (s.reached v k).pass = .ok (s.reached v (k + 1), false) := by
  have same : GenKill.differs s.order v v = false :=
    GenKill.differs_eq_false_iff.2 fun _ _ => Valuation.sameAt_refl
  rw [pass_reached ready, h.sweep_eq visits, same]

/-- With fuel to spare, a run ends with the first pass that changes nothing. -/
theorem runFor_reached (ready : s.Ready) {v : Valuation s.problem.size} {k : Nat}
    (quiet : s.problem.FirstQuiet s.flow (fun _ => s.strategy) s.order v k) {fuel l : Nat} (j : Nat)
    (le : l ≤ k) (lt : k - l < fuel) :
    (s.reached (s.problem.sweeps s.flow (fun _ => s.strategy) s.order v l) (j + l)).runFor fuel =
      .ok (s.reached (s.problem.sweeps s.flow (fun _ => s.strategy) s.order v (k + 1))
        (j + (k + 1))) := by
  induction fuel generalizing l with
  | zero => exact absurd lt (Nat.not_lt_zero _)
  | succ fuel ih =>
    have pass : (s.reached (s.problem.sweeps s.flow (fun _ => s.strategy) s.order v l)
          (j + l)).pass =
        .ok (s.reached (s.problem.sweeps s.flow (fun _ => s.strategy) s.order v (l + 1))
            (j + (l + 1)),
          s.problem.changes s.flow (fun _ => s.strategy) s.order v l) := pass_reached ready _ _
    rw [runFor, pass]
    simp only [bind, Except.bind]
    cases Nat.lt_or_eq_of_le le with
    | inl earlier =>
      rw [quiet.loud l earlier, if_pos rfl]
      exact ih earlier (by omega)
    | inr last =>
      subst last
      rw [quiet.quiet, if_neg Bool.false_ne_true]
      rfl

theorem results_reached (v : Valuation s.problem.size) (k : Nat) :
    (s.reached v k).results.Shows s.flow.nodeCount s.problem.direction v := by
  obtain ⟨flow, p, order, cells, strategy, passes⟩ := s
  cases hd : p.direction with
  | forward =>
    constructor <;>
      simp [results, entryStates, exitStates, reached, Valuation.cells, Valuation.cell, hd,
        Valuation.entry, Valuation.exit, Function.comp_def]
  | backward =>
    constructor <;>
      simp [results, entryStates, exitStates, reached, Valuation.cells, Valuation.cell, hd,
        Valuation.entry, Valuation.exit, Function.comp_def]

/-- The visiting order of a new solver holds its participants, each once. -/
theorem ready_new {g : FlowGraph} {p : GenKill} {strategy : Strategy} :
    ((new g p).withStrategy strategy).Ready :=
  ⟨fun _ hn => FlowGraph.lt_of_mem_visitOrder hn, FlowGraph.nodup_visitOrder⟩

theorem new_eq_reached {g : FlowGraph} {p : GenKill} :
    new g p = (new g p).reached (p.initialValuation g) 0 := by
  simp only [reached, new, GenKill.initialCells_eq]

/-- `solve` stops at the first pass that changes nothing, if its fuel lasts so long. -/
theorem solve_reached (ready : s.Ready) {v : Valuation s.problem.size} {k : Nat}
    (quiet : s.problem.FirstQuiet s.flow (fun _ => s.strategy) s.order v k) (lt : k < s.limit)
    (j : Nat) :
    ∃ r, (s.reached v j).solve = .ok r ∧ r.passes = j + (k + 1) ∧
      r.Shows s.flow.nodeCount s.problem.direction
        (s.problem.sweeps s.flow (fun _ => s.strategy) s.order v k) := by
  have whole := (GenKill.sweep_eq_self ready.nodup (GenKill.differs_eq_false_iff.1 quiet.quiet)).1
  have run : (s.reached v j).runFor s.limit = .ok (s.reached
      (s.problem.sweeps s.flow (fun _ => s.strategy) s.order v (k + 1)) (j + (k + 1))) :=
    runFor_reached ready quiet j (Nat.zero_le k) lt
  refine ⟨(s.reached _ (j + (k + 1))).results, ?_, rfl, results_reached _ _⟩
  change Solver.results <$> (s.reached v j).runFor s.limit = _
  rw [run, GenKill.sweeps, whole]
  rfl

theorem add_lt_limit (s : Solver) : s.order.length * s.problem.size + 2 < s.limit := by
  have : 2 * 2 ≤ (s.order.length + 2) * (s.order.length + 2) :=
    Nat.mul_le_mul (Nat.le_add_left 2 _) (Nat.le_add_left 2 _)
  unfold limit
  omega

/-- A new solver stops at the first pass that changes nothing. -/
theorem solve_eq_sweeps (g : FlowGraph) (p : GenKill) (strategy : Strategy) :
    ∃ k, p.FirstQuiet g (fun _ => strategy) (g.visitOrder p.direction) (p.initialValuation g) k ∧
      ∃ r, ((new g p).withStrategy strategy).solve = .ok r ∧ r.passes = k + 1 ∧
        r.Shows g.nodeCount p.direction (p.sweeps g (fun _ => strategy) (g.visitOrder p.direction)
          (p.initialValuation g) k) := by
  obtain ⟨k, le, quiet⟩ := GenKill.exists_firstQuiet FlowGraph.mem_visitOrder_iff
    FlowGraph.nodup_visitOrder (GenKill.not_moved_initialValuation (p := p)) fun _ => strategy
  let s := (new g p).withStrategy strategy
  have begin : s = s.reached (p.initialValuation g) 0 :=
    congrArg (withStrategy · strategy) new_eq_reached
  have enough : k < s.limit :=
    Nat.lt_of_le_of_lt (le.trans (Nat.le_succ _)) s.add_lt_limit
  obtain ⟨r, solved, passes, shows⟩ := solve_reached (s := s) ready_new quiet enough 0
  exact ⟨k, quiet, r, (congrArg solve begin).trans solved, passes.trans (Nat.zero_add _), shows⟩

/-- `solve` ends in a valuation that evaluation leaves as it is at each participant, and that has
what evaluations keep. -/
theorem solve_settles {g : FlowGraph} {p : GenKill} (strategy : Strategy)
    {P : Valuation p.size → Prop} (start : P (p.initialValuation g))
    (keep : ∀ u w n, g.Participates p.direction n → P u → P w → P (w.patch n (p.image g u))) :
    ∃ r v, ((new g p).withStrategy strategy).solve = .ok r ∧
      r.Shows g.nodeCount p.direction v ∧ P v ∧ p.Settled g v := by
  obtain ⟨k, quiet, r, solved, -, shows⟩ := solve_eq_sweeps g p strategy
  refine ⟨r, _, solved, shows, ?_,
    (quiet.settled FlowGraph.mem_visitOrder_iff FlowGraph.nodup_visitOrder).2⟩
  exact GenKill.sweeps_induction start fun u w n hn =>
    keep u w n ((FlowGraph.mem_visitOrder_iff n).1 hn)

section Kept

variable {t : Solver}

/-- A pass keeps the graph and the problem. -/
theorem pass_keeps {changed : Bool} (passed : s.pass = .ok (t, changed)) :
    t.flow = s.flow ∧ t.problem = s.problem := by
  obtain ⟨flow, p, order, cells, strategy, passes⟩ := s
  -- whatever a sweep gives, it becomes the cells alone
  have keep : ∀ swept : Except Fault (Array Cell × Bool),
      (swept >>= fun r => pure (⟨flow, p, order, r.1, strategy, passes + 1⟩, r.2)) =
        .ok (t, changed) → t.flow = flow ∧ t.problem = p := by
    intro swept ends
    cases swept with
    | error f => cases ends
    | ok r =>
      cases ends
      exact ⟨rfl, rfl⟩
  cases strategy with
  | gaussSeidel => exact keep (p.gaussSeidelPass flow order cells) passed
  | jacobi => exact keep (p.jacobiPass flow order cells) passed

theorem runFor_keeps {fuel : Nat} (run : s.runFor fuel = .ok t) :
    t.flow = s.flow ∧ t.problem = s.problem := by
  induction fuel generalizing s with
  | zero => cases run
  | succ fuel ih =>
    rw [runFor] at run
    cases passed : s.pass with
    | error f =>
      rw [passed] at run
      cases run
    | ok next =>
      obtain ⟨u, changed⟩ := next
      have keeps := pass_keeps passed
      rw [passed] at run
      cases changed with
      | false =>
        obtain rfl : u = t := Except.ok.inj run
        exact keeps
      | true =>
        have later := ih (s := u) run
        exact ⟨later.1.trans keeps.1, later.2.trans keeps.2⟩

/-- The warnings depend on the graph and the direction alone. -/
theorem warnings_of_solve {r : Results BitSet} (solved : s.solve = .ok r) :
    r.warnings = s.warnings := by
  rw [solve] at solved
  cases run : s.runFor s.limit with
  | error f =>
    rw [run] at solved
    cases solved
  | ok u =>
    rw [run] at solved
    obtain rfl : u.results = r := Except.ok.inj solved
    obtain ⟨flow, problem⟩ := runFor_keeps run
    change u.warnings = s.warnings
    rw [warnings, warnings, flow, problem]

end Kept

end Solver
end FlowAnalysis
