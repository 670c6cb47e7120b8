import FlowAnalysis.Proofs.FlowGraph.BackEdges
import FlowAnalysis.Proofs.Statement.OutEdges

/-!
The edges of programs' graphs, node by node. Main statement: how many edges leave a node, where they
lead and of which kinds they are is told by the form of the statement at the node and by what runs
after it; no two edges have both ends in common.
-/
namespace FlowAnalysis

instance (s : Statement) (n t : Nat) : Decidable (s.ClosesLoop n t) :=
  decidable_of_iff (∃ l ∈ s.loops 0, l.1 = t ∧ t < n ∧ n < l.2) <| by
    constructor
    · rintro ⟨⟨t, e⟩, mem, rfl, inside⟩
      exact ⟨e, mem, inside⟩
    · rintro ⟨e, mem, inside⟩
      exact ⟨(t, e), mem, rfl, inside⟩

namespace FlowGraph

variable {s : Statement} {g : FlowGraph} {e : Edge EdgeKind} {σ : Statement.Site} {n : Nat}

theorem outgoingEdges_eq_outEdges :
    g.graph.outgoingEdges n = Statement.outEdges g.graph.edges.toList n := by
  rw [Digraph.outgoingEdges, Digraph.toList_outgoing]
  rfl

/-- Tests count twice and all other points once. -/
theorem sum_degrees {ts : List Statement} : (ts.map fun t => if t.isTest then 2 else 1).sum =
    ts.countP (!·.isTest) + 2 * ts.countP (·.isTest) := by
  induction ts with
  | nil => rfl
  | cons t ts ih =>
    rw [List.map_cons, List.sum_cons, ih, List.countP_cons, List.countP_cons]
    cases t.isTest <;> simp <;> omega

theorem exists_site (lt : n < s.size) : ∃ σ ∈ s.sites 0 s.size, σ.node = n := by
  have mem : n ∈ List.range' 0 s.size := List.mem_range'_1.2 ⟨Nat.zero_le n, by omega⟩
  rw [← Statement.map_node_sites s 0 s.size] at mem
  exact List.mem_map.1 mem

section Built

variable (built : build s = .ok g)
include built

theorem back_iff_closesLoop (he : e ∈ g.graph.edges) :
    e.data = .back ↔ s.ClosesLoop e.source e.target := by
  refine ⟨closesLoop_of_back built he, fun ⟨_, _, lt, _⟩ => ?_⟩
  exact ((directed_of_build built he).resolve_right fun onward => Nat.lt_asymm lt onward.2).1

/-- From a site lead the edges that the form of its statement asks for. -/
theorem outgoingEdges_site (mem : σ ∈ s.sites 0 s.size) :
    g.graph.outgoingEdges σ.node = σ.outEdges (s.ClosesLoop σ.node σ.next) := by
  obtain ⟨b, found⟩ : ∃ b, Statement.outEdges g.graph.edges.toList σ.node = σ.outEdges b := by
    obtain ⟨accepted, rfl⟩ := build_eq_ok.1 built
    exact s.exists_outEdges_site .sequence 0 s.size false accepted mem
  have closes : ∀ kind, kind ≠ .back → (σ.next, bif b then .back else kind) ∈ σ.outEdges b →
      b = decide (s.ClosesLoop σ.node σ.next) := by
    intro kind onward leads
    have edge := Array.mem_toList_iff.1 (Statement.mem_outEdges.1 (found ▸ leads))
    have back := back_iff_closesLoop built edge
    cases b with
    | true => exact (decide_eq_true (back.1 rfl)).symm
    | false => exact (decide_eq_false fun closed => onward (back.2 closed)).symm
  rw [outgoingEdges_eq_outEdges, found]
  obtain ⟨n, t, next⟩ := σ
  cases t with
  | skip => rw [← closes .sequential nofun List.mem_cons_self]
  | assign x e => rw [← closes .sequential nofun List.mem_cons_self]
  | seq body => rfl
  | loop c body => rw [← closes .whenFalse nofun (List.mem_cons_of_mem _ List.mem_cons_self)]
  | branch c t f => rfl

theorem edges_source_lt (he : e ∈ g.graph.edges) : e.source < s.size := by
  obtain ⟨-, rfl⟩ := build_eq_ok.1 built
  exact lt_of_step_ofStatement (Digraph.mem_successors.2 ⟨e, he, rfl, rfl⟩)

theorem outgoingEdges_eq_nil (le : s.size ≤ n) : g.graph.outgoingEdges n = [] := by
  rw [outgoingEdges_eq_outEdges]
  refine Statement.outEdges_eq_nil fun e he => ?_
  have := edges_source_lt built (Array.mem_toList_iff.1 he)
  omega

/-- The edges from a node lead to different nodes. -/
theorem nodup_targets (n : Nat) : ((g.graph.outgoingEdges n).map Prod.fst).Nodup := by
  by_cases lt : n < s.size
  · obtain ⟨σ, mem, rfl⟩ := exists_site lt
    have outside := Statement.next_outside mem (by omega)
    rw [outgoingEdges_site built mem]
    obtain ⟨accepted, rfl⟩ := build_eq_ok.1 built
    have wired := (wired_ofStatement accepted).site mem
    obtain ⟨n, t, next⟩ := σ
    cases t with
    | skip => exact List.nodup_singleton _
    | assign x e => exact List.nodup_singleton _
    | seq body => exact List.nodup_nil
    | loop c body =>
      have pos := wired.2.size_pos
      have apart : n + 1 ≠ next := by
        simp only [Statement.size] at outside
        omega
      simp [Statement.Site.outEdges, apart]
    | branch c t f =>
      have apart : t.size ≠ 0 := Nat.ne_of_gt wired.2.1.size_pos
      simp [Statement.Site.outEdges, apart]
  · rw [outgoingEdges_eq_nil built (Nat.le_of_not_lt lt)]
    exact List.nodup_nil

theorem edgeCount_eq :
    g.edgeCount = s.points.countP (!·.isTest) + 2 * s.points.countP (·.isTest) := by
  have below : ∀ e ∈ g.graph.edges.toList, e.source < s.size := fun e he =>
    edges_source_lt built (Array.mem_toList_iff.1 he)
  calc g.edgeCount
      = ((List.range s.size).map fun k => (g.graph.outgoingEdges k).length).sum := by
        simp only [outgoingEdges_eq_outEdges]
        exact Statement.length_eq_sum below
    _ = ((s.sites 0 s.size).map fun σ => (g.graph.outgoingEdges σ.node).length).sum := by
        rw [List.range_eq_range', ← Statement.map_node_sites s 0 s.size, List.map_map]
        rfl
    _ = ((s.sites 0 s.size).map fun σ => if σ.statement.isTest then 2 else 1).sum := by
        refine congrArg List.sum (List.map_congr_left fun σ mem => ?_)
        rw [outgoingEdges_site built mem]
        exact Statement.Site.length_outEdges (Statement.isSome_action?_of_site mem)
    _ = (s.points.map fun t => if t.isTest then 2 else 1).sum := by
        rw [← Statement.map_statement_sites_eq_points (i := 0) (d := s.size), List.map_map]
        rfl
    _ = s.points.countP (!·.isTest) + 2 * s.points.countP (·.isTest) := sum_degrees

/-- A point that is no test has one edge, to what runs next. A test has an edge to the point after
it, then the test of a branch one to where its other part starts, and that of a loop one to what
runs after the loop. Edges to what runs next are back edges where they close a loop. No two edges
have both ends in common. -/
theorem out_edges_by_form :
    s.points.length = s.size ∧
      (∀ n t, s.points[n]? = some t → g.label? n = some (.stmt (n + 1)) ∧
        ∃ next, ⟨n, t, next⟩ ∈ s.sites 0 s.size ∧
          g.graph.outgoingEdges n =
            Statement.Site.outEdges ⟨n, t, next⟩ (s.ClosesLoop n next)) ∧
      g.nodeCount = s.size + 1 ∧ g.exit = s.size ∧ g.label? s.size = some .exit ∧
      g.graph.outgoingEdges s.size = [] ∧
      (g.graph.edges.toList.map fun e => (e.source, e.target)).Nodup ∧
      g.edgeCount = s.points.countP (!·.isTest) + 2 * s.points.countP (·.isTest) := by
  refine ⟨s.length_points, fun n t at_n => ?_, ?_, ?_, ?_,
    outgoingEdges_eq_nil built (Nat.le_refl _), ?_, edgeCount_eq built⟩
  · have lt : n < s.size := s.length_points ▸ (List.getElem?_eq_some_iff.1 at_n).1
    obtain ⟨next, mem⟩ := (Statement.getElem?_points_iff s.size).1 at_n
    refine ⟨?_, next, mem, outgoingEdges_site built mem⟩
    obtain ⟨-, rfl⟩ := build_eq_ok.1 built
    exact label?_point lt
  · obtain ⟨-, rfl⟩ := build_eq_ok.1 built
    exact nodeCount_ofStatement
  · obtain ⟨-, rfl⟩ := build_eq_ok.1 built
    rfl
  · obtain ⟨-, rfl⟩ := build_eq_ok.1 built
    exact label?_size
  · refine Statement.nodup_map_ends fun n => ?_
    rw [← outgoingEdges_eq_outEdges]
    exact nodup_targets built n

end Built

/-- The last point of the loop leads back to its test, which leads into the loop and on. -/
theorem out_edges_by_form_countdown :
    build .countdown = .ok (ofStatement .countdown) ∧
      (ofStatement .countdown).graph.outgoingEdges 0 = [(1, .whenTrue), (3, .whenFalse)] ∧
      (ofStatement .countdown).graph.outgoingEdges 1 = [(2, .sequential)] ∧
      (ofStatement .countdown).graph.outgoingEdges 2 = [(0, .back)] ∧
      (ofStatement .countdown).edgeCount = 4 := by
  obtain ⟨-, leaves, -, -, -, -, -, count⟩ := out_edges_by_form build_countdown
  have sites : ∀ {n t next}, ⟨n, t, next⟩ ∈ Statement.countdown.sites 0 3 →
      (n, next) ∈ [(0, 3), (1, 2), (2, 0)] := fun mem =>
    List.mem_map_of_mem (f := fun σ : Statement.Site => (σ.node, σ.next)) mem
  refine ⟨build_countdown, ?_, ?_, ?_, count.trans (by decide)⟩
  · obtain ⟨-, next, mem, found⟩ := leaves 0 _ rfl
    obtain rfl : next = 3 := by simpa using sites mem
    exact found.trans (by decide)
  · obtain ⟨-, next, mem, found⟩ := leaves 1 _ rfl
    obtain rfl : next = 2 := by simpa using sites mem
    exact found.trans (by decide)
  · obtain ⟨-, next, mem, found⟩ := leaves 2 _ rfl
    obtain rfl : next = 0 := by simpa using sites mem
    exact found.trans (by decide)

end FlowGraph
end FlowAnalysis
