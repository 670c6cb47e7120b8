import FlowAnalysis.Report

/-!
Graphs that differ at most in the order in which edges of different nodes were inserted. Main
statement: reports on them are the same.
-/
namespace FlowAnalysis

/-- The graphs have the same nodes, and at each node the same edges in the same order. -/
structure Digraph.Alike {N E : Type} (g h : Digraph N E) : Prop where
  nodes : g.nodes = h.nodes
  outgoing : g.outgoing = h.outgoing
  incoming : g.incoming = h.incoming

namespace Digraph.Alike

variable {N E : Type} {g h : Digraph N E} (alike : g.Alike h)
include alike

theorem nodeCount_eq : g.nodeCount = h.nodeCount := congrArg Array.size alike.nodes

theorem successors_eq (n : Nat) : g.successors n = h.successors n := by
  rw [successors, successors, alike.outgoing]

theorem predecessors_eq (n : Nat) : g.predecessors n = h.predecessors n := by
  rw [predecessors, predecessors, alike.incoming]

theorem outgoingEdges_eq (n : Nat) : g.outgoingEdges n = h.outgoingEdges n := by
  rw [outgoingEdges, outgoingEdges, alike.outgoing]

theorem search_eq (seen : BitSet) (stack : List Frame) :
    g.search seen stack = h.search seen stack := by
  fun_induction search g seen stack with
  | case1 seen => rw [search]
  | case2 seen n rest ih => rw [search, ih]
  | case3 seen n m ms rest fresh known =>
    rw [search, ← alike.successors_eq, known]
    by_cases new : seen.lacks m = true
    · rw [dif_pos new, dif_pos new, fresh new]
    · rw [dif_neg new, dif_neg new]

theorem events_eq (start : Nat) : g.events start = h.events start := by
  rw [events, events, alike.nodeCount_eq, alike.successors_eq, alike.search_eq]

theorem searchEdges_eq (start : Nat) : g.searchEdges start = h.searchEdges start := by
  rw [searchEdges, searchEdges, alike.events_eq]

theorem postorder_eq (start : Nat) : g.postorder start = h.postorder start := by
  rw [postorder, postorder, alike.events_eq]

theorem reachableFrom_eq (start : Nat) : g.reachableFrom start = h.reachableFrom start := by
  rw [reachableFrom, reachableFrom, alike.postorder_eq, alike.nodeCount_eq]

theorem closeBackwards_eq (reached : BitSet) (work : List Nat) :
    g.closeBackwards reached work = h.closeBackwards reached work := by
  fun_induction closeBackwards g reached work with
  | case1 reached => rw [closeBackwards]
  | case2 reached n rest new ih => rw [closeBackwards, dif_pos new, ih, alike.predecessors_eq]
  | case3 reached n rest known ih => rw [closeBackwards, dif_neg known, ih]

theorem reachingTo_eq (target : Nat) : g.reachingTo target = h.reachingTo target := by
  rw [reachingTo, reachingTo, alike.closeBackwards_eq, alike.nodeCount_eq]

end Digraph.Alike

namespace FlowGraph

/-- The graphs are alike and have the same ends. -/
structure Alike (g h : FlowGraph) : Prop where
  graph : g.graph.Alike h.graph
  entry : g.entry = h.entry
  exit : g.exit = h.exit

namespace Alike

variable {g h : FlowGraph} (alike : g.Alike h)
include alike

theorem nodes_eq : g.nodes = h.nodes := congrArg Array.toList alike.graph.nodes

theorem labels_eq : g.labels = h.labels := by
  rw [labels, labels, alike.nodes_eq]

theorem nodeIds_eq : g.nodeIds = h.nodeIds := congrArg List.range alike.graph.nodeCount_eq

theorem label?_eq (n : Nat) : g.label? n = h.label? n := by
  rw [label?, label?, node?, node?, alike.graph.nodes]

theorem exitLabels_eq : g.exitLabels = h.exitLabels := by
  rw [exitLabels, exitLabels, predecessors, predecessors, alike.exit, alike.graph.predecessors_eq,
    funext alike.label?_eq]

theorem edges_eq : g.edges = h.edges := by
  rw [edges, edges, alike.graph.searchEdges_eq, alike.entry]
  simp only [alike.label?_eq]

theorem sources_eq (d : Direction) (n : Nat) : g.sources d n = h.sources d n := by
  cases d with
  | forward => exact alike.graph.predecessors_eq n
  | backward => exact alike.graph.successors_eq n

theorem boundaryNode_eq (d : Direction) : g.boundaryNode d = h.boundaryNode d := by
  cases d with
  | forward => exact alike.entry
  | backward => exact alike.exit

theorem participants_eq (d : Direction) : g.participants d = h.participants d := by
  cases d with
  | forward =>
    rw [participants, participants, reachable, reachable, alike.graph.reachableFrom_eq, alike.entry]
  | backward =>
    rw [participants, participants, reachesExit, reachesExit, alike.graph.reachingTo_eq, alike.exit]

theorem walk_eq (d : Direction) : g.walk d = h.walk d := by
  have order : g.postorder = h.postorder := by
    rw [postorder, postorder, alike.graph.postorder_eq, alike.entry]
  cases d with
  | forward => exact congrArg List.reverse order
  | backward => exact order

theorem visitOrder_eq (d : Direction) : g.visitOrder d = h.visitOrder d := by
  rw [visitOrder, visitOrder, alike.participants_eq, alike.walk_eq, alike.nodeIds_eq]

theorem idleNodes_eq (d : Direction) : g.idleNodes d = h.idleNodes d := by
  rw [idleNodes, idleNodes, alike.participants_eq, alike.nodeIds_eq]

theorem availableExprs_eq (scope : Scope) : g.availableExprs scope = h.availableExprs scope := by
  simp only [availableExprs, trackedExprs, alike.nodes_eq]

theorem reachingDefs_eq : g.reachingDefs = h.reachingDefs := by
  have definitions_eq : g.definitions = h.definitions := by
    rw [definitions, definitions, alike.nodes_eq]
  have rivals_eq : g.rivals = h.rivals := by
    funext d
    rw [rivals, rivals, definitions_eq]
  rw [reachingDefs, reachingDefs, definitions_eq, rivals_eq, alike.nodes_eq]

theorem liveVariables_eq : g.liveVariables = h.liveVariables := by
  simp only [liveVariables, FlowGraph.variables, alike.nodes_eq]

end Alike
end FlowGraph

namespace GenKill

variable {g h : FlowGraph} (alike : g.Alike h) (p : GenKill)
include alike

theorem evaluate_alike (cells : Array Cell) (n : Nat) :
    p.evaluate g cells n = p.evaluate h cells n := by
  rw [evaluate, evaluate, sourceStates, sourceStates, alike.sources_eq]
  simp only [inflow, alike.boundaryNode_eq]

theorem gaussSeidelPass_alike (order : List Nat) (cells : Array Cell) :
    p.gaussSeidelPass g order cells = p.gaussSeidelPass h order cells := by
  simp only [gaussSeidelPass, p.evaluate_alike alike]

theorem jacobiPass_alike (order : List Nat) (cells : Array Cell) :
    p.jacobiPass g order cells = p.jacobiPass h order cells := by
  simp only [jacobiPass, p.evaluate_alike alike]

end GenKill

namespace Solver

/-- The solver goes on over another graph. -/
def moveTo (h : FlowGraph) (s : Solver) : Solver := { s with flow := h }

variable {h : FlowGraph} {s : Solver}

/-- A pass over a graph that is alike finds the same fault or the same states. -/
theorem pass_moveTo (alike : s.flow.Alike h) :
    (∃ e, s.pass = .error e ∧ (s.moveTo h).pass = .error e) ∨
      ∃ t changed, s.pass = .ok (t, changed) ∧ t.flow = s.flow ∧
        (s.moveTo h).pass = .ok (t.moveTo h, changed) := by
  obtain ⟨g, p, order, cells, strategy, passes⟩ := s
  cases strategy with
  | gaussSeidel =>
    simp only [pass, moveTo, ← p.gaussSeidelPass_alike alike]
    cases p.gaussSeidelPass g order cells with
    | error e => exact Or.inl ⟨e, rfl, rfl⟩
    | ok r => exact Or.inr ⟨_, _, rfl, rfl, rfl⟩
  | jacobi =>
    simp only [pass, moveTo, ← p.jacobiPass_alike alike]
    cases p.jacobiPass g order cells with
    | error e => exact Or.inl ⟨e, rfl, rfl⟩
    | ok r => exact Or.inr ⟨_, _, rfl, rfl, rfl⟩

theorem results_moveTo (alike : s.flow.Alike h) : (s.moveTo h).results = s.results := by
  have warnings : (s.moveTo h).warnings = s.warnings := by
    simp only [Solver.warnings, moveTo, alike.idleNodes_eq, alike.label?_eq]
  rw [results, results, warnings]
  simp only [moveTo, ← alike.labels_eq, entryStates, exitStates]

theorem results_runFor_moveTo (alike : s.flow.Alike h) (fuel : Nat) :
    results <$> (s.moveTo h).runFor fuel = results <$> s.runFor fuel := by
  induction fuel generalizing s with
  | zero => rfl
  | succ fuel ih =>
    obtain ⟨e, faults, faultsThere⟩ | ⟨t, changed, passed, flow, passedThere⟩ := pass_moveTo alike
    · rw [runFor, runFor, faults, faultsThere]
    · rw [runFor, runFor, passed, passedThere]
      have alike : t.flow.Alike h := flow ▸ alike
      cases changed with
      | false => exact congrArg Except.ok (results_moveTo alike)
      | true => exact ih alike

theorem solve_moveTo (alike : s.flow.Alike h) : (s.moveTo h).solve = s.solve :=
  results_runFor_moveTo alike s.limit

end Solver

namespace FlowGraph.Alike

variable {g h : FlowGraph} (alike : g.Alike h)
include alike

theorem solve_eq {α : Type} [DecidableEq α] (a : Analysis α) (strategy : Strategy) :
    a.solve g strategy = a.solve h strategy := by
  have moved : (Solver.new h a.problem).withStrategy strategy =
      ((Solver.new g a.problem).withStrategy strategy).moveTo h := by
    have count : h.nodeCount = g.nodeCount := alike.graph.nodeCount_eq.symm
    simp only [Solver.new, Solver.withStrategy, Solver.moveTo, Solver.initialCells, count,
      alike.visitOrder_eq, alike.boundaryNode_eq]
  rw [Analysis.solve, Analysis.solve, moved, Solver.solve_moveTo]
  exact alike

theorem report_eq {α : Type} [DecidableEq α] (a : Analysis α) (config : Config) (fact : α → Fact) :
    a.report g config fact = a.report h config fact := by
  simp only [Analysis.report, alike.solve_eq, Report.ofResults, alike.edges_eq, alike.nodes_eq]

/-- Whatever is asked, reports on graphs that are alike are the same. -/
theorem analyze_eq (config : Config) : g.analyze config = h.analyze config := by
  rw [analyze, analyze, alike.availableExprs_eq, alike.reachingDefs_eq, alike.liveVariables_eq]
  simp only [alike.report_eq]

end FlowGraph.Alike
end FlowAnalysis
