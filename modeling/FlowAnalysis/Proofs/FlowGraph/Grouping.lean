import FlowAnalysis.Proofs.FlowGraph.Alike
import FlowAnalysis.Proofs.Report
import FlowAnalysis.Proofs.Statement.Grouping

/-!
Programs that differ in how their sequences are grouped. Main statement: their graphs look the same
from every node, and so do all reports on them.
-/
namespace FlowAnalysis

/-- Every report can be given on a program that has a graph. -/
theorem Statement.exists_analyze {s : Statement} {g : FlowGraph} (built : FlowGraph.build s = .ok g)
    (config : Config) : ∃ r, s.analyze config = .ok r := by
  obtain ⟨kind, strategy, scope⟩ := config
  cases kind with
  | availableExprs =>
    obtain ⟨r, -, analyzed, -⟩ := analyze_overWalks built ⟨.availableExprs, strategy, scope⟩
      (g.availableExprs scope) .expr rfl
    exact ⟨r, analyzed⟩
  | reachingDefs =>
    obtain ⟨r, -, analyzed, -⟩ := analyze_overWalks built ⟨.reachingDefs, strategy, scope⟩
      g.reachingDefs (fun d => .definition d.label d.target) rfl
    exact ⟨r, analyzed⟩
  | liveVariables =>
    obtain ⟨r, -, analyzed, -⟩ := analyze_overWalks built ⟨.liveVariables, strategy, scope⟩
      g.liveVariables .var rfl
    exact ⟨r, analyzed⟩

namespace Digraph

variable {N : Type} {nodes nodes' : Array N} {edges edges' : Array (Edge EdgeKind)}

/-- Where edges of different nodes were inserted in another order, graphs are alike. -/
theorem alike_ofEdges (same : nodes = nodes')
    (ends : Statement.SameEnds edges.toList edges'.toList) (valid) (valid') :
    (ofEdges nodes edges valid).Alike (ofEdges nodes' edges' valid') := by
  subst same
  refine ⟨rfl, ?_, ?_⟩
  · refine congrArg Array.ofFn (funext fun n => Array.toList_inj.1 ?_)
    simpa using ends.leaving n
  · refine congrArg Array.ofFn (funext fun n => Array.toList_inj.1 ?_)
    simpa using ends.entering n

end Digraph

/-- A loop over three members, the first two of which make a sequence of their own. -/
def Statement.groupedFirst : Statement :=
  .loop (.var "x") <| .seq
    [.seq [.branch (.var "y") .skip .skip, .assign "x" (.var "y")], .skip]

/-- The same loop, with the last two members grouped, and two sequences of one member. -/
def Statement.groupedLast : Statement :=
  .seq [.loop (.var "x") <| .seq
    [.branch (.var "y") (.seq [.skip]) .skip, .seq [.assign "x" (.var "y"), .skip]]]

namespace FlowGraph

variable {s t : Statement}

/-- Programs of the same members have graphs that are alike. -/
theorem alike_of_flat {block block' : BlockKind} (accepted : s.issues block = [])
    (accepted' : t.issues block' = []) (same : s.flat = t.flat) :
    (ofStatement s).Alike (ofStatement t) := by
  have actions : s.actions = t.actions := by
    rw [← s.actions_flat, ← t.actions_flat, same]
  have size : s.size = t.size := by
    rw [← s.size_flat, ← t.size_flat, same]
  have exits : s.exits 0 = t.exits 0 := by
    rw [← s.exits_flat block 0 accepted, ← t.exits_flat block' 0 accepted', same]
  have within : Statement.SameEnds (s.edges 0) (t.edges 0) :=
    (s.edges_flat block 0 accepted).symm.trans (same ▸ t.edges_flat block' 0 accepted')
  refine ⟨Digraph.alike_ofEdges ?_ ?_ _ _, rfl, size⟩
  · rw [nodesOf, nodesOf, actions]
  · have links : Statement.link (s.exits 0) s.size = Statement.link (t.exits 0) t.size := by
      rw [exits, size]
    simpa only [edgesOf, links] using within.append .refl

/-- Grouping of sequences does not matter: from every node the graphs of programs that have the same
members look the same, and all reports on the programs are the same. -/
theorem build_analyze_congr_flat {g h : FlowGraph} (built : build s = .ok g)
    (built' : build t = .ok h) (same : s.flat = t.flat) :
    g.nodes = h.nodes ∧ g.nodeIds = h.nodeIds ∧ g.labels = h.labels ∧
      g.entry = h.entry ∧ g.exit = h.exit ∧ g.exitLabels = h.exitLabels ∧
      (∀ n, g.graph.outgoingEdges n = h.graph.outgoingEdges n ∧
        g.successors n = h.successors n ∧ g.predecessors n = h.predecessors n) ∧
      g.edges = h.edges ∧
      ∀ config, ∃ r, s.analyze config = .ok r ∧ t.analyze config = .ok r := by
  obtain ⟨accepted, rfl⟩ := build_eq_ok.1 built
  obtain ⟨accepted', rfl⟩ := build_eq_ok.1 built'
  have alike := alike_of_flat accepted accepted' same
  refine ⟨alike.nodes_eq, alike.nodeIds_eq, alike.labels_eq, alike.entry,
    alike.exit, alike.exitLabels_eq, fun n => ?_, alike.edges_eq, fun config => ?_⟩
  · exact ⟨alike.graph.outgoingEdges_eq n, alike.graph.successors_eq n,
      alike.graph.predecessors_eq n⟩
  · obtain ⟨r, analyzed⟩ := Statement.exists_analyze built config
    have moved : s.analyze config = t.analyze config := by
      rw [Statement.analyze, Statement.analyze, built, built']
      exact congrArg (Except.mapError Failure.fault) (alike.analyze_eq config)
    exact ⟨r, analyzed, moved ▸ analyzed⟩

/-- The edges that join the branch to the assignment are inserted before the one that leaves the
assignment, or after it. -/
theorem build_analyze_congr_flat_loop :
    Statement.groupedFirst ≠ Statement.groupedLast ∧
      Statement.groupedFirst.flat = Statement.groupedLast.flat ∧
      build .groupedFirst = .ok (ofStatement .groupedFirst) ∧
      build .groupedLast = .ok (ofStatement .groupedLast) ∧
      (ofStatement .groupedFirst).edges = (ofStatement .groupedLast).edges ∧
      ∀ config, ∃ r, Statement.groupedFirst.analyze config = .ok r ∧
        Statement.groupedLast.analyze config = .ok r := by
  have built : build .groupedFirst = .ok (ofStatement .groupedFirst) :=
    build_eq_ok.2 ⟨by decide, rfl⟩
  have built' : build .groupedLast = .ok (ofStatement .groupedLast) :=
    build_eq_ok.2 ⟨by decide, rfl⟩
  obtain ⟨-, -, -, -, -, -, -, edges, reports⟩ := build_analyze_congr_flat built built' rfl
  exact ⟨nofun, rfl, built, built', edges, reports⟩

end FlowGraph
end FlowAnalysis
