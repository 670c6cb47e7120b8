import FlowAnalysis.Proofs.FlowGraph.Built
import FlowAnalysis.Proofs.Solver.MeetOverWalks
import FlowAnalysis.Report

/-!
What reports list. Main statement: when all labels differ, a report lists under the label of each
node the facts of the states that the walks to the node give.
-/
namespace FlowAnalysis

namespace FactTable

variable {l : Label} {f : NodeFacts}

theorem ofRows_concat (rows : List (Label × NodeFacts)) (k : Label) :
    ofRows (rows ++ [(k, f)]) = (ofRows rows).insert k f := by
  rw [ofRows, List.foldl_append]
  rfl

/-- When all labels differ, no row is lost. -/
theorem lookup_ofRows {rows : List (Label × NodeFacts)} (distinct : (rows.map (·.1)).Nodup)
    (h : (l, f) ∈ rows) : (ofRows rows).lookup l = some f := by
  induction rows using List.reverseRecOn with
  | nil => cases h
  | append_singleton rows row ih =>
    obtain ⟨k, f'⟩ := row
    rw [ofRows_concat, lookup_insert]
    rw [List.map_append, List.nodup_append] at distinct
    cases List.mem_append.1 h with
    | inl h =>
      have other : l ≠ k :=
        distinct.2.2 l (List.mem_map.2 ⟨_, h, rfl⟩) k (List.mem_singleton_self k)
      rw [if_neg other]
      exact ih distinct.1 h
    | inr h =>
      obtain ⟨rfl, rfl⟩ := Prod.mk.inj (List.mem_singleton.1 h)
      rw [if_pos rfl]

/-- Of the rows of one label the last is found. -/
theorem lookup_ofRows_map {α : Type} (xs : List α) (label : α → Label) (facts : α → NodeFacts) :
    (ofRows (xs.map fun x => (label x, facts x))).lookup l =
      (xs.reverse.find? (label · == l)).map facts := by
  induction xs using List.reverseRecOn with
  | nil => rfl
  | append_singleton xs x ih =>
    rw [List.map_append, List.map_singleton, ofRows_concat, lookup_insert, ih, List.reverse_append,
      List.reverse_singleton, List.singleton_append, List.find?_cons]
    by_cases same : l = label x
    · simp [same]
    · have other : (label x == l) = false := by simpa using Ne.symm same
      rw [if_neg same, other]

end FactTable

namespace Report

variable {g : FlowGraph} {results : Results BitSet} {size : Nat} {d : Direction}
  {v : Valuation size} {n : Nat} {node : Node} {l : Label} {kind : AnalysisKind}
  {describe : BitSet → List Fact}

theorem find?_ofResults (kind : AnalysisKind) (describe : BitSet → List Fact)
    (distinct : g.labels.Nodup) (shows : results.Shows g.nodeCount d v)
    (h : g.node? n = some node) :
    (ofResults kind g results describe).find? node.label =
      some ⟨describe (.ofBits (v.entry d n)), describe (.ofBits (v.exit d n))⟩ := by
  have lt : n < g.nodeCount := (Array.getElem?_eq_some_iff.1 h).1
  apply FactTable.lookup_ofRows
  · rw [List.map_map]
    exact FlowGraph.labels_eq_zipIdx ▸ distinct
  · have place : (node, n) ∈ g.nodes.zipIdx := by
      rw [List.mem_zipIdx_iff_getElem?]
      exact (Array.getElem?_toList ..).trans h
    refine List.mem_map.2 ⟨_, place, ?_⟩
    simp only [shows.entryAt lt, shows.exitAt lt]
    rfl

/-- A report has under a label what it found at the last node of that label. -/
theorem find?_ofResults_eq : (ofResults kind g results describe).find? l =
    (g.nodes.zipIdx.reverse.find? (·.1.label == l)).map fun (_, i) =>
      ⟨(results.entryStates[i]?.map describe).getD [],
        (results.exitStates[i]?.map describe).getD []⟩ :=
  FactTable.lookup_ofRows_map ..

/-- Reports have entries for the labels of nodes, each of them for one node, whatever is solved. -/
theorem exists_find?_ofResults (mem : l ∈ g.labels) :
    ∃ n < g.nodeCount, ∀ kind results describe,
      (ofResults kind g results describe).find? l =
        some ⟨(results.entryStates[n]?.map describe).getD [],
          (results.exitStates[n]?.map describe).getD []⟩ := by
  obtain ⟨node, hnode, rfl⟩ := List.mem_map.1 mem
  obtain ⟨i, at_i⟩ := List.getElem?_of_mem hnode
  have place : (node, i) ∈ g.nodes.zipIdx.reverse :=
    List.mem_reverse.2 (List.mem_zipIdx_iff_getElem?.2 at_i)
  obtain ⟨⟨last, n⟩, found⟩ := Option.isSome_iff_exists.1
    (List.find?_isSome (p := (·.1.label == node.label)).2 ⟨_, place, beq_self_eq_true _⟩)
  have at_n : g.nodes[n]? = some last :=
    List.mem_zipIdx_iff_getElem?.1 (List.mem_reverse.1 (List.mem_of_find?_eq_some found))
  refine ⟨n, ?_, fun kind results describe => ?_⟩
  · exact (Array.getElem?_eq_some_iff.1 ((Array.getElem?_toList ..).symm.trans at_n)).1
  · rw [find?_ofResults_eq, found]
    rfl

/-- A report has no entry for a label that no node has. -/
theorem mem_labels_of_find? {f : NodeFacts}
    (found : (ofResults kind g results describe).find? l = some f) : l ∈ g.labels := by
  rw [find?_ofResults_eq] at found
  obtain ⟨⟨node, i⟩, found, -⟩ := Option.map_eq_some_iff.1 found
  have place : g.nodes[i]? = some node :=
    List.mem_zipIdx_iff_getElem?.1 (List.mem_reverse.1 (List.mem_of_find?_eq_some found))
  have same : node.label = l := by simpa using List.find?_some found
  exact List.mem_map.2 ⟨node, List.mem_of_getElem? place, same⟩

end Report

theorem Analysis.report_of_solve {α : Type} [DecidableEq α] {a : Analysis α} {g : FlowGraph}
    {config : Config} {fact : α → Fact} {results : Results BitSet}
    (solved : a.solve g config.strategy = .ok results) : a.report g config fact =
      .ok (.ofResults config.kind g results fun s => (a.holding s).map fact) := by
  rw [report, solved]
  rfl

/-- The report on an analysis never faults, and it lists under the label of each node the facts of
the states that the walks give. -/
theorem Analysis.report_overWalks {α : Type} [DecidableEq α] (a : Analysis α) {g : FlowGraph}
    (config : Config) (fact : α → Fact) (distinct : g.labels.Nodup) :
    ∃ r v, a.report g config fact = .ok r ∧ a.problem.OverWalks g v ∧
      ∀ n node, g.node? n = some node →
        r.entry? node.label = some ((a.holding (.ofBits (v.entry a.direction n))).map fact) ∧
        r.exit? node.label = some ((a.holding (.ofBits (v.exit a.direction n))).map fact) := by
  obtain ⟨results, v, solved, shows, walks⟩ :=
    GenKill.solve_overWalks (g := g) (p := a.problem) config.strategy rfl
  refine ⟨.ofResults config.kind g results fun s => (a.holding s).map fact, v, ?_, walks, ?_⟩
  · exact report_of_solve solved
  · intro n node h
    have found :=
      Report.find?_ofResults config.kind (fun s => (a.holding s).map fact) distinct shows h
    constructor
    · rw [Report.entry?, found]
      rfl
    · rw [Report.exit?, found]
      rfl

/-- The report on a program is that on its graph. -/
theorem Statement.analyze_of_build {s : Statement} {g : FlowGraph} {config : Config} {r : Report}
    (built : FlowGraph.build s = .ok g) (reported : g.analyze config = .ok r) :
    s.analyze config = .ok r := by
  rw [analyze, built]
  change (g.analyze config).mapError _ = _
  rw [reported]
  rfl

/-- The report on a program that has a graph: every node takes part. -/
theorem Statement.analyze_overWalks {α : Type} [DecidableEq α] {s : Statement} {g : FlowGraph}
    (built : FlowGraph.build s = .ok g) (config : Config) (a : Analysis α) (fact : α → Fact)
    (asked : g.analyze config = a.report g config fact) :
    ∃ r v, s.analyze config = .ok r ∧ a.problem.OverWalks g v ∧
      ∀ n node, g.node? n = some node → g.Participates a.direction n ∧
        r.entry? node.label = some ((a.holding (.ofBits (v.entry a.direction n))).map fact) ∧
        r.exit? node.label = some ((a.holding (.ofBits (v.exit a.direction n))).map fact) := by
  obtain ⟨r, v, reported, walks, lists⟩ :=
    a.report_overWalks config fact (FlowGraph.nodup_labels built)
  refine ⟨r, v, analyze_of_build built (asked.trans reported), walks,
    fun n node h => ⟨?_, lists n node h⟩⟩
  exact FlowGraph.participates_of_build built _ (Array.getElem?_eq_some_iff.1 h).1

end FlowAnalysis
