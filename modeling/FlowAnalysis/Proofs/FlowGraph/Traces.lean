import FlowAnalysis.Proofs.FlowGraph.Built
import FlowAnalysis.Proofs.Statement.Trace

/-!
The executions that a graph allows. Main statement: the walks from the entry of a program's graph to
its exit pass the labels of the program's traces, and no others.
-/
namespace FlowAnalysis
namespace FlowGraph

variable {s : Statement} {g : FlowGraph}

/-- The labels on a way through a program that ends at its exit. -/
theorem labels_of_points {ns : List Nat} (points : ∀ n ∈ ns, n < s.size) :
    (ns ++ [s.size]).map (ofStatement s).label? =
      (ns.map (fun n => Label.stmt (n + 1)) ++ [Label.exit]).map some := by
  rw [List.map_append, List.map_append, List.map_map, List.map_singleton, label?_size]
  congr 1
  exact List.map_congr_left fun n hn => label?_point (points n hn)

/-- A program's graph has exactly the executions of the program. -/
theorem walks_iff_traces (built : build s = .ok g) (ls : List Label) :
    (∃ ns, Walk g.Step g.entry ns g.exit ∧ (ns ++ [g.exit]).map g.label? = ls.map some) ↔
      ∃ w, s.Trace 0 w ∧ ls = w.map (fun n => .stmt (n + 1)) ++ [.exit] := by
  obtain ⟨accepted, rfl⟩ := build_eq_ok.1 built
  have wired := wired_ofStatement accepted
  have points : ∀ {ns : List Nat}, Walk (ofStatement s).Step 0 ns s.size →
      ∀ n ∈ ns, n < s.size := by
    intro ns walk n hn
    obtain ⟨m, step⟩ := walk.next_of_mem hn
    exact lt_of_step_ofStatement step
  change (∃ ns, Walk (ofStatement s).Step 0 ns s.size ∧
    (ns ++ [s.size]).map (ofStatement s).label? = ls.map some) ↔ _
  constructor
  · rintro ⟨ns, walk, labels⟩
    have first : s.size ∉ ns := fun mem => Nat.lt_irrefl _ (points walk _ mem)
    refine ⟨ns, wired.trace_of_walk (by omega) walk first, ?_⟩
    rw [labels_of_points (points walk)] at labels
    exact (List.map_inj_right fun _ _ => Option.some.inj).1 labels.symm
  · rintro ⟨w, trace, rfl⟩
    have walk := wired.walk_of_trace trace
    exact ⟨w, walk, labels_of_points (points walk)⟩

/-- Twice through the loop and out. -/
theorem walks_iff_traces_countdown :
    build .countdown = .ok (ofStatement .countdown) ∧
      ∃ ns, Walk (ofStatement .countdown).Step 0 ns 3 ∧
        (ns ++ [3]).map (ofStatement .countdown).label? =
          [some (.stmt 1), some (.stmt 2), some (.stmt 3), some (.stmt 1), some (.stmt 2),
            some (.stmt 3), some (.stmt 1), some .exit] := by
  refine ⟨build_countdown, (walks_iff_traces build_countdown
    [.stmt 1, .stmt 2, .stmt 3, .stmt 1, .stmt 2, .stmt 3, .stmt 1, .exit]).2
    ⟨[0, 1, 2, 0, 1, 2, 0], ⟨[[1, 2], [1, 2]], ?_, rfl⟩, rfl⟩⟩
  simp [Statement.Trace, Statement.TraceAll, Statement.size]

end FlowGraph
end FlowAnalysis
