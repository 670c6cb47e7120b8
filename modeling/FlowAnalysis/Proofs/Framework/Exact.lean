import FlowAnalysis.Proofs.Framework.GenKill
import FlowAnalysis.Proofs.Solver.MeetOverWalks

/-!
Passes of solvers. Main statement: on every graph, solvers of frameworks and of gen/kill problems
visit every participant once, and the flag of a pass says exactly whether it changes any state; once
it says no, it says so for ever.
-/
namespace FlowAnalysis
namespace Solver

/-- The solver `s` solves `p` on `g`, and has states for every node. -/
structure Treats (p : GenKill) (g : FlowGraph) (s : Solver) : Prop where
  flow : s.flow = g
  problem : s.problem = p
  order : s.order = g.visitOrder p.direction
  size : s.cells.size = g.nodeCount

theorem iteration_new (g : FlowGraph) (p : GenKill) :
    (new g p).iteration = .new p.framework g := by
  have order : (new g p).iteration.order = (Iteration.new p.framework g).order :=
    FlowGraph.nodes_listing.symm
  have before : (new g p).iteration.before = (Iteration.new p.framework g).before := by
    refine Array.ext_getElem? fun m => ?_
    simp only [iteration, new, initialCells, Iteration.new, GenKill.framework, Array.getElem?_map,
      Array.getElem?_modify, Array.getElem?_setIfInBounds, Array.getElem?_replicate,
      Array.size_replicate]
    by_cases here : g.boundaryNode p.direction = m
    · subst here
      rw [if_pos rfl, if_pos rfl]
      split <;> rfl
    · rw [if_neg here, if_neg here]
      split <;> rfl
  have after : (new g p).iteration.after = (Iteration.new p.framework g).after := by
    refine Array.ext_getElem? fun m => ?_
    simp only [iteration, new, initialCells, Iteration.new, GenKill.framework, Array.getElem?_map,
      Array.getElem?_modify, Array.getElem?_replicate]
    split_ifs <;> rfl
  calc (new g p).iteration
      = { Iteration.new p.framework g with
          order := (new g p).iteration.order
          before := (new g p).iteration.before
          after := (new g p).iteration.after } := rfl
    _ = .new p.framework g := by rw [order, before, after]

theorem map_zipWith_cell {xs ys : Array BitSet} (shape : ys.size = xs.size) :
    (Array.zipWith Cell.mk xs ys).map (·.before) = xs ∧
      (Array.zipWith Cell.mk xs ys).map (·.after) = ys := by
  constructor
  · apply Array.ext <;> simp [shape]
  · apply Array.ext <;> simp [shape]

theorem iteration_resume {g : FlowGraph} {p : GenKill} {r : Results BitSet}
    (shape : r.Shaped) :
    (resume g p r).iteration = .resume p.framework g r := by
  unfold resume Iteration.resume
  dsimp only
  split
  next =>
    change { (new g p).iteration with
      before := (cellsOf p.direction r).map Cell.before
      after := (cellsOf p.direction r).map Cell.after } = _
    have direction : p.framework.direction = p.direction := rfl
    rw [iteration_new, direction]
    cases p.direction with
    | forward =>
      obtain ⟨before, after⟩ := map_zipWith_cell shape
      rw [cellsOf, before, after]
    | backward =>
      obtain ⟨before, after⟩ := map_zipWith_cell shape.symm
      rw [cellsOf, before, after]
  next => exact iteration_new g p

theorem results_iteration (s : Solver) : s.iteration.results = s.results := by
  unfold Iteration.results results entryStates exitStates
  have direction : s.iteration.framework.direction = s.problem.direction := rfl
  rw [direction]
  cases s.problem.direction <;> rfl

theorem treats_new (g : FlowGraph) (p : GenKill) : Treats p g (new g p) :=
  ⟨rfl, rfl, rfl, by simp [new, initialCells]⟩

theorem treats_resume {g : FlowGraph} {p : GenKill} {r : Results BitSet}
    (shape : r.Shaped) : Treats p g (resume g p r) := by
  unfold resume
  dsimp only
  split
  next count =>
    refine ⟨rfl, rfl, rfl, ?_⟩
    change r.entryStates.size = g.nodeCount at count
    change (cellsOf p.direction r).size = g.nodeCount
    rw [Results.Shaped] at shape
    unfold cellsOf
    cases p.direction <;> simp [shape, count]
  next => exact treats_new g p

theorem exists_cells_of_pass {s t : Solver} {changed : Bool} (passed : s.pass = .ok (t, changed)) :
    ∃ cells, t = { s with cells := cells, passes := s.passes + 1 } := by
  obtain ⟨flow, p, order, cells, strategy, passes⟩ := s
  cases strategy with
  | gaussSeidel =>
    change p.gaussSeidelPass flow order cells >>= _ = _ at passed
    obtain ⟨swept, -, done⟩ := exists_of_bind_eq_ok passed
    cases done
    exact ⟨swept.1, rfl⟩
  | jacobi =>
    change p.jacobiPass flow order cells >>= _ = _ at passed
    obtain ⟨swept, -, done⟩ := exists_of_bind_eq_ok passed
    cases done
    exact ⟨swept.1, rfl⟩

section Treats

variable {g : FlowGraph} {p : GenKill} {s t : Solver} {changed : Bool} (treats : Treats p g s)
include treats

theorem Treats.cells_size : s.cells.size = s.flow.nodeCount := by
  rw [treats.size, treats.flow]

theorem Treats.valid : ∀ n ∈ s.order, n < s.flow.nodeCount := by
  intro n mem
  rw [treats.order] at mem
  rw [treats.flow]
  exact FlowGraph.lt_of_mem_visitOrder mem

theorem Treats.pass (passed : s.pass = .ok (t, changed)) : Treats p g t := by
  have iterated : s.iteration.pass = .ok (t.iteration, changed) := by
    rw [pass_iteration treats.cells_size treats.valid, passed]
    rfl
  obtain ⟨u, run, same⟩ := Iteration.pass_eq_ok_iff.1 iterated
  have size : t.iteration.before.size = s.iteration.before.size := by
    rw [same, ← (Iteration.sweep_keeps run).sizes.1]
  obtain ⟨cells, rfl⟩ := exists_cells_of_pass passed
  refine ⟨treats.flow, treats.problem, treats.order, ?_⟩
  rw [← treats.size]
  simpa [iteration] using size

end Treats

/-- A solver of a gen/kill problem does what the iteration of its framework does. -/
theorem follows_iteration (g : FlowGraph) (p : GenKill) :
    SolverKind.Follows iteration (Treats p g) (p.kind g) (p.framework.kind g) where
  start := iteration_new g p
  resume := fun _ shape => iteration_resume shape
  withStrategy := fun _ _ => rfl
  pass := fun _ treats => pass_iteration treats.cells_size treats.valid
  order := fun _ treats => map_fst_order treats.valid
  results := results_iteration
  invStart := treats_new g p
  invResume := fun _ shape => treats_resume shape
  invWithStrategy := fun _ _ treats => ⟨treats.flow, treats.problem, treats.order, treats.size⟩
  invPass := fun _ _ _ treats passed => treats.pass passed

end Solver

end FlowAnalysis
