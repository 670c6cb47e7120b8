import FlowAnalysis.FlowGraph.Build
import FlowAnalysis.Proofs.FlowWalk
import FlowAnalysis.Proofs.Statement.Fragment
import FlowAnalysis.Proofs.Statement.Wiring

/-!
The graphs of programs. Main statements: labels ascend in the order of the nodes, so all differ;
every node is in reach of the entry and reaches the exit, so all take part in every analysis; and
the graph wires the program from node zero to the exit.
-/
namespace FlowAnalysis

/-- A loop whose test is the entry: while x > 0 do y := x * y; x := x - 1. -/
def Statement.countdown : Statement :=
  .loop (.binary .gt (.var "x") (.const 0)) <| .seq
    [.assign "y" (.binary .mul (.var "x") (.var "y")),
      .assign "x" (.binary .sub (.var "x") (.const 1))]

theorem Label.ne_of_lt {l m : Label} (lt : l < m) : l ≠ m := by
  rintro rfl
  cases l with
  | stmt n => exact absurd (Label.stmt_lt_stmt.1 lt) (Nat.lt_irrefl n)
  | exit => exact absurd lt (Label.not_exit_lt _)

theorem Label.lt_asymm {l m : Label} (lt : l < m) : ¬ m < l := by
  cases l with
  | stmt i =>
    cases m with
    | stmt j =>
      rw [Label.stmt_lt_stmt] at lt ⊢
      exact Nat.lt_asymm lt
    | exit => exact Label.not_exit_lt _
  | exit => exact absurd lt (Label.not_exit_lt _)

namespace FlowGraph

variable {s : Statement} {g : FlowGraph} {a b n : Nat}

theorem build_eq_ok : build s = .ok g ↔ s.issues .sequence = [] ∧ g = ofStatement s := by
  unfold build
  cases s.issues .sequence with
  | nil =>
    constructor
    · intro built
      exact ⟨rfl, (Except.ok.inj built).symm⟩
    · rintro ⟨-, rfl⟩
      rfl
  | cons issue rest => simp

theorem build_countdown : build .countdown = .ok (ofStatement .countdown) :=
  build_eq_ok.2 ⟨by decide, rfl⟩

theorem nodeCount_ofStatement : (ofStatement s).nodeCount = s.size + 1 := by
  simp [ofStatement, nodeCount, Digraph.nodeCount, Digraph.ofEdges]

theorem entry_lt (built : build s = .ok g) : g.entry < g.nodeCount := by
  obtain ⟨-, rfl⟩ := build_eq_ok.1 built
  exact Nat.lt_of_le_of_lt (Nat.zero_le s.size) (ofStatement s).exit_lt

theorem within_edgesOf : Statement.Within (ofStatement s).Step (edgesOf s) := by
  intro e he
  exact Digraph.mem_successors.2 ⟨e, List.mem_toArray.2 he, rfl, rfl⟩

theorem labels_ofStatement :
    (ofStatement s).labels = (List.range s.size).map (fun i => .stmt (i + 1)) ++ [.exit] := by
  simp only [labels, nodes, ofStatement, Digraph.ofEdges, nodesOf, List.map_append]
  congr 1
  apply List.ext_getElem
  · simp
  · intro i h h'
    simp

theorem label?_eq : g.label? n = g.labels[n]? := by
  rw [label?, node?, labels, nodes, List.getElem?_map, Array.getElem?_toList]

/-- Labels count the points from one. -/
theorem label?_point (lt : n < s.size) : (ofStatement s).label? n = some (.stmt (n + 1)) := by
  rw [label?_eq, labels_ofStatement, List.getElem?_append_left (by simpa using lt),
    List.getElem?_map, List.getElem?_range lt]
  rfl

theorem label?_size : (ofStatement s).label? s.size = some .exit := by
  rw [label?_eq, labels_ofStatement, List.getElem?_append_right (by simp)]
  simp

theorem label?_ofStatement {l : Label} : (ofStatement s).label? n = some l ↔
    n < s.size ∧ l = .stmt (n + 1) ∨ n = s.size ∧ l = .exit := by
  obtain lt | rfl | gt := Nat.lt_trichotomy n s.size
  · rw [label?_point lt]
    simp [lt, Nat.ne_of_lt lt, eq_comm]
  · rw [label?_size]
    simp [eq_comm]
  · have none : (ofStatement s).labels[n]? = none := by
      rw [List.getElem?_eq_none_iff, labels_ofStatement]
      simpa using Nat.succ_le_of_lt gt
    rw [label?_eq, none]
    simp [Nat.lt_asymm gt, Nat.ne_of_gt gt]

/-- A label of a program's graph names the one node that has it. -/
theorem find?_iff (built : build s = .ok g) {l : Label} :
    g.find? l = some n ↔ g.label? n = some l := by
  obtain ⟨-, rfl⟩ := build_eq_ok.1 built
  rw [label?_ofStatement]
  match l with
  | .exit => simp [find?, ofStatement, eq_comm]
  | .stmt 0 => simp [find?]
  | .stmt (k + 1) =>
    by_cases point : k < s.size
    · have own : (ofStatement s).find? (.stmt (k + 1)) = some k := if_pos (label?_point point)
      rw [own]
      simp only [Option.some.injEq, Label.stmt.injEq, reduceCtorEq, and_false, or_false]
      omega
    · have other : ∀ m, (ofStatement s).label? m ≠ some (.stmt (k + 1)) := by
        intro m
        simp only [ne_eq, label?_ofStatement, Label.stmt.injEq, reduceCtorEq, and_false, or_false]
        omega
      have none : (ofStatement s).find? (.stmt (k + 1)) = none := by simp [find?, other]
      rw [none]
      simp only [Label.stmt.injEq, reduceCtorEq, and_false, or_false, false_iff]
      omega

theorem pairwise_labels (built : build s = .ok g) : g.labels.Pairwise (· < ·) := by
  obtain ⟨-, rfl⟩ := build_eq_ok.1 built
  rw [labels_ofStatement, List.pairwise_append]
  refine ⟨?_, List.pairwise_singleton _ _, ?_⟩
  · rw [List.pairwise_map]
    exact List.pairwise_lt_range.imp fun lt => Label.stmt_lt_stmt.2 (Nat.succ_lt_succ lt)
  · intro l hl m hm
    obtain ⟨i, -, rfl⟩ := List.mem_map.1 hl
    obtain rfl := List.mem_singleton.1 hm
    exact Label.stmt_lt_exit _

theorem nodup_labels (built : build s = .ok g) : g.labels.Nodup :=
  (pairwise_labels built).imp Label.ne_of_lt

theorem labels_eq_zipIdx : g.labels = g.nodes.zipIdx.map fun p => p.1.label := by
  calc g.labels = (g.nodes.zipIdx.map Prod.fst).map (·.label) := by rw [List.zipIdx_map_fst, labels]
    _ = g.nodes.zipIdx.map fun p => p.1.label := List.map_map

theorem label_injective (built : build s = .ok g) {m n : Nat} {a b : Node}
    (ha : g.node? m = some a) (hb : g.node? n = some b) (same : a.label = b.label) : m = n := by
  have labelled : ∀ {k : Nat} {c : Node}, g.node? k = some c → g.labels[k]? = some c.label := by
    intro k c hc
    rw [labels, List.getElem?_map, nodes, Array.getElem?_toList]
    exact congrArg _ hc
  have inside : m < g.labels.length := (List.getElem?_eq_some_iff.1 (labelled ha)).1
  rw [← List.getElem?_inj inside (nodup_labels built), labelled ha, labelled hb, same]

/-- The whole graph is a fragment that is left at the exit alone. -/
theorem fragment_ofStatement (accepted : s.issues .sequence = []) :
    Fragment (ofStatement s).Step 0 (s.size + 1) [(s.size, .sequential)] := by
  have edges := within_edgesOf (s := s)
  simp only [edgesOf, Statement.within_append, Statement.within_link] at edges
  have body := Statement.fragment s .sequence 0 accepted edges.1
  have exit : Fragment (ofStatement s).Step s.size 1 [(s.size, .sequential)] := Fragment.node
  rw [← Nat.zero_add s.size] at exit edges
  simpa using body.seq exit edges.2

theorem participates_of_build (built : build s = .ok g) (d : Direction) (lt : n < g.nodeCount) :
    g.Participates d n := by
  obtain ⟨accepted, rfl⟩ := build_eq_ok.1 built
  have whole := fragment_ofStatement accepted
  have lt' : n < 0 + (s.size + 1) := by
    rw [Nat.zero_add, ← nodeCount_ofStatement]
    exact lt
  cases d with
  | forward => exact ⟨lt, whole.entered n (Nat.zero_le n) lt'⟩
  | backward =>
    obtain ⟨x, hx, leave⟩ := whole.left n (Nat.zero_le n) lt'
    obtain rfl := List.mem_singleton.1 hx
    exact ⟨lt, leave⟩

/-- Something flows to some node. -/
theorem exists_feeds (built : build s = .ok g) (d : Direction) :
    ∃ m n, g.Feeds d m n ∧ g.Participates d n := by
  have other : ∃ n < g.nodeCount, n ≠ g.boundaryNode d := by
    obtain ⟨accepted, rfl⟩ := build_eq_ok.1 built
    have pos := Statement.size_pos accepted
    rw [nodeCount_ofStatement]
    by_cases first : (ofStatement s).boundaryNode d = 0
    · exact ⟨s.size, Nat.lt_succ_self _, by omega⟩
    · exact ⟨0, Nat.succ_pos _, Ne.symm first⟩
  obtain ⟨n, lt, inner⟩ := other
  have part := participates_of_build built d lt
  obtain ⟨m, feeds⟩ := List.exists_mem_of_ne_nil _ (part.fed.resolve_left inner)
  exact ⟨m, n, feeds, part⟩

theorem step_ofStatement : (ofStatement s).Step a b ↔ Statement.Leads (edgesOf s) a b := by
  refine Digraph.mem_successors.trans ?_
  simp only [ofStatement, Digraph.ofEdges, List.mem_toArray]
  rfl

/-- Control goes through the points of a program by its form, and on to the exit. -/
theorem wired_ofStatement (accepted : s.issues .sequence = []) :
    s.Wired (ofStatement s).Step 0 s.size := by
  refine Statement.wired s .sequence 0 s.size accepted fun a b _ _ => ?_
  rw [step_ofStatement, edgesOf, Statement.leads_append, Statement.leads_link]

/-- Nothing leads on from the exit. -/
theorem lt_of_step_ofStatement (step : (ofStatement s).Step a b) : a < s.size := by
  rw [step_ofStatement, edgesOf, Statement.leads_append, Statement.leads_link] at step
  obtain inner | ⟨out, -⟩ := step
  · have := inner.bounds
    omega
  · have := out.bounds
    omega

end FlowGraph
end FlowAnalysis
