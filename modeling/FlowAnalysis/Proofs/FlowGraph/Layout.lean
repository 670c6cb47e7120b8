import FlowAnalysis.Proofs.FlowGraph.Labelling
import FlowAnalysis.Proofs.FlowGraph.Simulation
import FlowAnalysis.Proofs.Statement.Sites

/-!
The layout of programs' graphs. Main statement: a construction that succeeds has given one label and
one node to each point of the program, in program order; the exit comes after them, and control
comes to it from the points at which the program can end.
-/
namespace FlowAnalysis

/-- A branch after an assignment, one part of which ends in a loop. -/
def Statement.forked : Statement :=
  .seq [.assign "x" (.const 0),
    .branch (.var "x") (.seq [.skip, .loop (.var "x") .skip]) .skip]

namespace Statement

mutual

/-- The labels of the points at which a statement can end, where its points are labelled from `l`
on. -/
def final (l : Nat) : Statement → List Nat
  | skip => [l]
  | assign _ _ => [l]
  | seq body => finalAll l body
  | loop _ _ => [l]
  | branch _ t f => t.final (l + 1) ++ f.final (l + 1 + t.size)

/-- A sequence ends where its last member does. -/
def finalAll (l : Nat) : List Statement → List Nat
  | [] => []
  | [s] => s.final l
  | s :: t :: rest => finalAll (l + s.size) (t :: rest)

end

variable {s : Statement} {block : BlockKind} {i : Nat} {e : Edge EdgeKind}

mutual

/-- Control leaves a statement where it can end. -/
theorem map_exits (s : Statement) (i : Nat) :
    (s.exits i).map (fun x => x.1 + 1) = s.final (i + 1) := by
  cases s with
  | skip => rfl
  | assign x e => rfl
  | seq body => exact map_exitsAll body i
  | loop c body => rfl
  | branch c t f =>
    rw [exits, List.map_append, map_exits t, map_exits f, final, Nat.add_right_comm (i + 1)]

theorem map_exitsAll (body : List Statement) (i : Nat) :
    (exitsAll i body).map (fun x => x.1 + 1) = finalAll (i + 1) body := by
  match body with
  | [] => rfl
  | [s] => exact map_exits s i
  | s :: t :: rest =>
    rw [exitsAll, finalAll, map_exitsAll (t :: rest), Nat.add_right_comm i]

end

/-- The edges within a statement lead to its own nodes. -/
theorem edges_target_lt (accepted : s.issues block = []) (he : e ∈ s.edges i) :
    e.target < i + s.size := by
  -- wired to some node beyond, the statement leads there from its exits alone
  let d := i + s.size + 1
  have wired : s.Wired (fun a b => Leads (s.edges i) a b ∨ Leaves (s.exits i) a ∧ b = d) i d :=
    wired s block i d accepted fun _ _ _ _ => Iff.rfl
  have leads : Leads (s.edges i) e.source e.target := ⟨e, he, rfl, rfl⟩
  have source := leads.bounds
  have target := edges_bounds s i e he
  have closed := wired.closed source.1 source.2 (Or.inl leads)
  omega

end Statement

namespace FlowGraph

variable {s : Statement} {g : FlowGraph}

/-- The nodes are the points in program order, under labels that count them from one. -/
theorem node?_point {t : Statement} {n : Nat} (at_n : s.points[n]? = some t) :
    ∃ a, t.action? = some a ∧ (ofStatement s).node? n = some ⟨.stmt (n + 1), a⟩ := by
  have acts : (s.actions.map some)[n]? = some t.action? := by
    rw [← Statement.map_action?_points, List.getElem?_map, at_n]
    rfl
  rw [List.getElem?_map, Option.map_eq_some_iff] at acts
  obtain ⟨a, at_n, acts⟩ := acts
  have holds := holdsAt_ofStatement n a at_n
  rw [Nat.zero_add] at holds
  exact ⟨a, acts.symm, holds⟩

/-- Control comes to the exit from the points at which the program can end. -/
theorem exitLabels_ofStatement (accepted : s.issues .sequence = []) :
    (ofStatement s).exitLabels = (s.final 1).map .stmt := by
  have within : (s.edges 0).filter (·.target == s.size) = [] := by
    refine List.filter_eq_nil_iff.2 fun e he => ?_
    have lt := Statement.edges_target_lt accepted he
    simp only [beq_iff_eq]
    omega
  have joined : (Statement.link (s.exits 0) s.size).filter (·.target == s.size) =
      Statement.link (s.exits 0) s.size :=
    List.filter_eq_self.2 (List.forall_mem_map.2 fun x _ => beq_self_eq_true s.size)
  have sources : (ofStatement s).predecessors s.size = (s.exits 0).map Prod.fst := by
    change (ofStatement s).graph.predecessors s.size = _
    rw [Digraph.predecessors_eq]
    change ((edgesOf s).filter (·.target == s.size)).map (·.source) = _
    rw [edgesOf, List.filter_append, within, joined, List.nil_append, Statement.link, List.map_map]
    rfl
  have labelled : ∀ x ∈ s.exits 0, (ofStatement s).label? x.1 = some (.stmt (x.1 + 1)) := by
    intro x hx
    have bounds := s.exits_bounds 0 x hx
    exact label?_point (by omega)
  change ((ofStatement s).predecessors s.size).filterMap _ = _
  rw [sources, ← s.map_exits 0, List.filterMap_map, List.map_map]
  exact (List.filterMap_congr labelled).trans (congrFun List.filterMap_eq_map' _)

/-- A construction that succeeds has made the first points of the program the first nodes, and so
on: every point has a label and a node, both by its place in program order. The exit comes last, and
control comes to it from the points at which the program can end. -/
theorem construct_lays_out (made : construct s = .ok g) :
    g.nodeCount = s.size + 1 ∧ s.points.length = s.size ∧
      (∀ n t, s.points[n]? = some t →
        ∃ a, t.action? = some a ∧ g.node? n = some ⟨.stmt (n + 1), a⟩) ∧
      g.node? s.size = some ⟨.exit, .exit⟩ ∧ g.exit = s.size ∧ g.entry = 0 ∧
      g.exitLabels = (s.final 1).map .stmt ∧ build s = .ok g ∧ s.size ≤ labelLimit := by
  obtain ⟨built, room⟩ := construct_eq_ok.1 made
  refine ⟨?_, s.length_points, ?_, ?_, ?_, ?_, ?_, built, room⟩ <;>
    obtain ⟨accepted, rfl⟩ := build_eq_ok.1 built
  · exact nodeCount_ofStatement
  · exact fun n t at_n => node?_point at_n
  · simp [ofStatement, node?, Digraph.ofEdges, nodesOf]
  · rfl
  · rfl
  · exact exitLabels_ofStatement accepted

/-- The program ends at the test of the loop or in the other part of the branch. -/
theorem construct_lays_out_forked :
    construct .forked = .ok (ofStatement .forked) ∧
      (ofStatement .forked).nodeCount = 7 ∧
      (ofStatement .forked).node? 4 = some ⟨.stmt 5, .skip⟩ ∧
      (ofStatement .forked).node? 3 = some ⟨.stmt 4, .test (.var "x")⟩ ∧
      (ofStatement .forked).exitLabels = [.stmt 4, .stmt 6] := by
  have made : construct .forked = .ok (ofStatement .forked) :=
    construct_eq_ok.2 ⟨build_eq_ok.2 ⟨by decide, rfl⟩, by decide⟩
  obtain ⟨count, -, nodes, -, -, -, ends, -⟩ := construct_lays_out made
  obtain ⟨_, acts, skips⟩ := nodes 4 .skip rfl
  obtain ⟨_, acts', tests⟩ := nodes 3 (.loop (.var "x") .skip) rfl
  cases acts
  cases acts'
  exact ⟨made, count, skips, tests, ends⟩

end FlowGraph
end FlowAnalysis
