import FlowAnalysis.Proofs.Analysis.Resume
import FlowAnalysis.Proofs.Framework.Exact
import FlowAnalysis.Proofs.Report

/-!
Lookups by label. Main statement: graphs, results and reports find the same node under a label, and
reports on programs list what the results have there, in the order of the labels.
-/
namespace FlowAnalysis

theorem findIdx?_beq_eq_some_iff {α : Type} [DecidableEq α] {xs : List α} {x : α} {n : Nat} :
    xs.findIdx? (· == x) = some n ↔ xs[n]? = some x ∧ ∀ m < n, xs[m]? ≠ some x := by
  rw [List.findIdx?_eq_some_iff_getElem]
  constructor
  · rintro ⟨lt, here, first⟩
    refine ⟨?_, fun m earlier same => ?_⟩
    · rw [List.getElem?_eq_getElem lt, beq_iff_eq.1 here]
    · obtain ⟨inside, same⟩ := List.getElem?_eq_some_iff.1 same
      exact first m earlier (beq_iff_eq.2 same)
  · rintro ⟨here, first⟩
    obtain ⟨lt, here⟩ := List.getElem?_eq_some_iff.1 here
    refine ⟨lt, beq_iff_eq.2 here, fun m earlier same => first m earlier ?_⟩
    rw [List.getElem?_eq_getElem (Nat.lt_trans earlier lt), beq_iff_eq.1 same]

section Place

variable {g : FlowGraph} {σ : Type} {r : Results σ} {l : Label} {n : Nat}

theorem FlowGraph.length_labels : g.labels.length = g.nodeCount := by
  rw [labels, List.length_map, nodes, Array.length_toList]
  rfl

theorem FlowGraph.lt_of_label? (h : g.label? n = some l) : n < g.nodeCount := by
  rw [label?_eq] at h
  exact length_labels ▸ (List.getElem?_eq_some_iff.1 h).1

/-- The first node of a label is the first place where the list of labels has it. -/
theorem FlowGraph.find?_nodeIds :
    (g.nodeIds.find? fun m => g.label? m == some l) = g.labels.findIdx? (· == l) := by
  refine Option.ext fun n => ?_
  rw [findIdx?_beq_eq_some_iff, nodeIds, Digraph.nodeIds, List.find?_range_eq_some]
  simp only [label?_eq, beq_iff_eq, List.mem_range, Bool.not_eq_true', beq_eq_false_iff_ne]
  constructor
  · rintro ⟨here, -, first⟩
    exact ⟨here, first⟩
  · rintro ⟨here, first⟩
    exact ⟨here, lt_of_label? (label?_eq.trans here), first⟩

theorem FlowGraph.lt_of_find? (found : g.find? l = some n) : n < g.nodeCount := by
  match l with
  | .exit => exact Option.some.inj found ▸ g.exit_lt
  | .stmt 0 => cases found
  | .stmt (k + 1) =>
    rw [find?] at found
    split at found
    next own => exact Option.some.inj found ▸ lt_of_label? own
    next =>
      rw [find?_nodeIds, findIdx?_beq_eq_some_iff] at found
      exact lt_of_label? (label?_eq.trans found.1)

/-- The label tells one node: that of the exit does if no earlier node has it. -/
def FlowGraph.Determines (g : FlowGraph) : Label → Prop
  | .stmt _ => True
  | .exit => g.label? g.exit = some .exit ∧ ∀ n < g.exit, g.label? n ≠ some .exit

section Labels

variable (labels : r.labels = g.labels.toArray)
include labels

theorem Results.position?_stmt (k : Nat) : r.position? (.stmt k) = g.find? (.stmt k) := by
  cases k with
  | zero => rfl
  | succ k =>
    rw [position?, FlowGraph.find?, labels, List.getElem?_toArray, FlowGraph.label?_eq,
      FlowGraph.find?_nodeIds]

theorem Results.position?_exit (own : g.label? g.exit = some .exit)
    (first : ∀ n < g.exit, g.label? n ≠ some .exit) : r.position? .exit = g.find? .exit := by
  rw [position?, labels, FlowGraph.find?, findIdx?_beq_eq_some_iff]
  simp only [FlowGraph.label?_eq] at own first
  exact ⟨own, first⟩

theorem Results.position?_eq (determined : g.Determines l) : r.position? l = g.find? l := by
  cases l with
  | stmt k => exact position?_stmt labels k
  | exit => exact position?_exit labels determined.1 determined.2

end Labels

/-- Under `l` the results have the states of the node that `g` finds there. -/
structure Results.Finds (r : Results σ) (g : FlowGraph) (l : Label) : Prop where
  entry : r.entry? l = (g.find? l).bind (r.entryStates[·]?)
  exit : r.exit? l = (g.find? l).bind (r.exitStates[·]?)

/-- Under `l` the results have no states just if `g` finds no node there. -/
structure Results.Misses (r : Results σ) (g : FlowGraph) (l : Label) : Prop where
  entry : r.entry? l = none ↔ g.find? l = none
  exit : r.exit? l = none ↔ g.find? l = none

theorem Results.finds_of_position (same : r.position? l = g.find? l) : r.Finds g l := by
  constructor
  · rw [Results.entry?, same]
    rfl
  · rw [Results.exit?, same]
    rfl

theorem Results.Finds.misses (h : r.Finds g l) (entry : r.entryStates.size = g.nodeCount)
    (exit : r.exitStates.size = g.nodeCount) : r.Misses g l := by
  have inside {xs : Array σ} (size : xs.size = g.nodeCount) :
      (g.find? l).bind (xs[·]?) = none ↔ g.find? l = none := by
    cases found : g.find? l with
    | none => simp
    | some n => simpa [size] using FlowGraph.lt_of_find? found
  exact ⟨h.entry ▸ inside entry, h.exit ▸ inside exit⟩

end Place

namespace Iteration

variable {g : FlowGraph} {σ : Type} {f : Framework σ} {A : Results σ → Prop} {s : Iteration σ}
  {r : Results σ} {l : Label}

/-- Each node of `g` has a state of either sort. -/
def Fills (g : FlowGraph) (s : Iteration σ) : Prop :=
  s.before.size = g.nodeCount ∧ s.after.size = g.nodeCount

theorem fills_new : Fills g (new f g) := ⟨by simp [new], by simp [new]⟩

theorem fills_resume (shaped : r.Shaped) : Fills g (resume f g r) := by
  obtain same | ⟨count, same | same⟩ := resume_cases f g r
  · exact same ▸ fills_new
  · exact same ▸ ⟨count, shaped.trans count⟩
  · exact same ▸ ⟨shaped.trans count, count⟩

theorem Fills.results (fills : Fills g s) : s.results.entryStates.size = g.nodeCount ∧
    s.results.exitStates.size = g.nodeCount := by
  unfold Iteration.results
  cases s.framework.direction with
  | forward => exact fills
  | backward => exact fills.symm

theorem labels_results (treats : Treats f g s) : s.results.labels = g.labels.toArray := by
  rw [← treats.flow]
  rfl

variable [DecidableEq σ]

theorem fills_of_reachable (shaped : ∀ r, A r → r.Shaped) (reached : (f.kind g).Reachable A s) :
    Fills g s := by
  induction reached with
  | start => exact fills_new
  | resume given => exact fills_resume (shaped _ given)
  | withStrategy strategy before ih => exact ih
  | pass before passed ih =>
    obtain ⟨u, run, rfl⟩ := pass_eq_ok_iff.1 passed
    have sizes := (sweep_keeps run).sizes
    exact ⟨sizes.1.trans ih.1, sizes.2.trans ih.2⟩

/-- Results of an iteration find the nodes that the graph finds. -/
theorem finds_of_solves (reached : (f.kind g).Reachable A s)
    (solves : (f.kind g).Solves s r) (determined : g.Determines l) : r.Finds g l := by
  obtain ⟨t, reached, rfl⟩ := solves.exists_reachable reached
  have labels := labels_results (treats_of_reachable reached)
  exact Results.finds_of_position (Results.position?_eq labels determined)

theorem misses_of_solves (shaped : ∀ r, A r → r.Shaped)
    (reached : (f.kind g).Reachable A s) (solves : (f.kind g).Solves s r)
    (determined : g.Determines l) : r.Misses g l := by
  have finds := finds_of_solves reached solves determined
  obtain ⟨t, reached, rfl⟩ := solves.exists_reachable reached
  obtain ⟨entry, exit⟩ := (fills_of_reachable shaped reached).results
  exact finds.misses entry exit

end Iteration

namespace Solver

variable {g : FlowGraph} {p : GenKill} {s t : Solver} {r : Results BitSet}

theorem solves_of_runFor {fuel : Nat} (run : s.runFor fuel = .ok t) :
    (p.kind g).Solves s t.results := by
  induction fuel generalizing s with
  | zero => cases run
  | succ fuel ih =>
    rw [runFor] at run
    obtain ⟨⟨u, changed⟩, passed, rest⟩ := exists_of_bind_eq_ok run
    cases changed with
    | false =>
      cases rest
      exact .last passed
    | true => exact .next passed (ih rest)

theorem solves_of_solve (solved : s.solve = .ok r) : (p.kind g).Solves s r := by
  rw [solve] at solved
  cases run : s.runFor s.limit with
  | error fault =>
    rw [run] at solved
    cases solved
  | ok t =>
    rw [run] at solved
    cases solved
    exact solves_of_runFor run

/-- Results of a solver find the nodes that the graph finds. -/
theorem finds_of_solve {A : Results BitSet → Prop} (shaped : ∀ r, A r → r.Shaped)
    (reached : (p.kind g).Reachable A s) (solved : s.solve = .ok r) {l : Label}
    (determined : g.Determines l) : r.Finds g l ∧ r.Misses g l := by
  have follows := follows_iteration g p
  obtain ⟨treats, iterated⟩ := follows.reachable shaped reached
  have solves := follows.solves treats (solves_of_solve solved)
  exact ⟨Iteration.finds_of_solves iterated solves determined,
    Iteration.misses_of_solves shaped iterated solves determined⟩

end Solver

namespace FactTable

variable {l : Label} {f : NodeFacts} {t : FactTable}

/-- A row under a label above all others comes last. -/
theorem insert_eq_append (above : ∀ row ∈ t, row.1 < l) : t.insert l f = t ++ [(l, f)] := by
  induction t with
  | nil => rfl
  | cons row t ih =>
    obtain ⟨lt, above⟩ := List.forall_mem_cons.1 above
    rw [insert, if_neg (Label.lt_asymm lt), if_neg (Label.ne_of_lt lt).symm, ih above]
    rfl

/-- The table of rows that are in order has them as they are. -/
theorem ofRows_of_pairwise {rows : List (Label × NodeFacts)}
    (ascending : (rows.map Prod.fst).Pairwise (· < ·)) : ofRows rows = rows := by
  induction rows using List.reverseRecOn with
  | nil => rfl
  | append_singleton rows row ih =>
    rw [List.map_append, List.pairwise_append] at ascending
    obtain ⟨before, -, last⟩ := ascending
    rw [ofRows_concat, ih before]
    refine insert_eq_append fun row' mem => ?_
    exact last _ (List.mem_map_of_mem mem) _ (List.mem_singleton_self _)

end FactTable

namespace FlowGraph

variable {s : Statement} {g : FlowGraph} {l : Label} {n : Nat}

/-- What a state of the analysis that `config` asks for says. -/
def describe (g : FlowGraph) (config : Config) (s : BitSet) : List Fact :=
  match config.kind with
  | .availableExprs => ((g.availableExprs config.scope).holding s).map .expr
  | .reachingDefs => (g.reachingDefs.holding s).map fun d => .definition d.label d.target
  | .liveVariables => (g.liveVariables.holding s).map .var

/-- A new solver of the analysis that `config` asks for. -/
def solver (g : FlowGraph) (config : Config) : Solver :=
  (Solver.new g (g.problem config.kind config.scope)).withStrategy config.strategy

theorem analyze_of_solve {config : Config} {r : Results BitSet}
    (solved : (g.solver config).solve = .ok r) :
    g.analyze config = .ok (.ofResults config.kind g r (g.describe config)) := by
  obtain ⟨kind, strategy, scope⟩ := config
  cases kind with
  | availableExprs => exact Analysis.report_of_solve solved
  | reachingDefs => exact Analysis.report_of_solve solved
  | liveVariables => exact Analysis.report_of_solve solved

theorem determines_of_build (built : build s = .ok g) (l : Label) : g.Determines l := by
  cases l with
  | stmt k => trivial
  | exit =>
    obtain ⟨-, rfl⟩ := build_eq_ok.1 built
    refine ⟨label?_size, fun n lt => ?_⟩
    rw [label?_point lt]
    exact nofun

variable (built : build s = .ok g) {kind : AnalysisKind} {r : Results BitSet}
  {describe : BitSet → List Fact}
include built

theorem find?_eq_none_of_build (absent : g.find? l = none) :
    (Report.ofResults kind g r describe).find? l = none := by
  refine Option.eq_none_iff_forall_ne_some.2 fun f found => ?_
  obtain ⟨n, here⟩ := List.getElem?_of_mem (Report.mem_labels_of_find? found)
  have named := (find?_iff built).2 (label?_eq.trans here)
  rw [absent] at named
  cases named

theorem find?_eq_some_of_build (found : g.find? l = some n) :
    (Report.ofResults kind g r describe).find? l = some
      ⟨(r.entryStates[n]?.map describe).getD [], (r.exitStates[n]?.map describe).getD []⟩ := by
  obtain ⟨node, here, rfl⟩ := Option.map_eq_some_iff.1 ((find?_iff built).1 found)
  apply FactTable.lookup_ofRows
  · rw [List.map_map]
    exact labels_eq_zipIdx ▸ nodup_labels built
  · have place : (node, n) ∈ g.nodes.zipIdx := by
      rw [List.mem_zipIdx_iff_getElem?]
      exact (Array.getElem?_toList ..).trans here
    exact List.mem_map.2 ⟨_, place, rfl⟩

/-- A report on a program has under each label what it says of the results there. -/
theorem entry?_ofResults (finds : r.Finds g l) (misses : r.Misses g l) :
    Report.entry? (.ofResults kind g r describe) l = (r.entry? l).map describe ∧
      Report.exit? (.ofResults kind g r describe) l = (r.exit? l).map describe := by
  rw [Report.entry?, Report.exit?]
  cases found : g.find? l with
  | none =>
    rw [find?_eq_none_of_build built found, misses.entry.2 found, misses.exit.2 found]
    exact ⟨rfl, rfl⟩
  | some n =>
    have entry : r.entry? l = r.entryStates[n]? := by rw [finds.entry, found]; rfl
    have exit : r.exit? l = r.exitStates[n]? := by rw [finds.exit, found]; rfl
    have present : ¬ g.find? l = none := by simp [found]
    obtain ⟨x, hx⟩ := Option.ne_none_iff_exists'.1 (mt misses.entry.1 present)
    obtain ⟨y, hy⟩ := Option.ne_none_iff_exists'.1 (mt misses.exit.1 present)
    rw [find?_eq_some_of_build built found, ← entry, ← exit, hx, hy]
    exact ⟨rfl, rfl⟩

/-- The rows of a report on a program: its points in order, and the exit. -/
theorem map_fst_facts : (Report.ofResults kind g r describe).facts.map Prod.fst =
    (List.range s.size).map (fun i => .stmt (i + 1)) ++ [.exit] := by
  let row (p : Node × Nat) : Label × NodeFacts := (p.1.label,
    ⟨(r.entryStates[p.2]?.map describe).getD [], (r.exitStates[p.2]?.map describe).getD []⟩)
  have labels : (g.nodes.zipIdx.map row).map Prod.fst = g.labels := by
    rw [List.map_map]
    exact labels_eq_zipIdx.symm
  have rows : (Report.ofResults kind g r describe).facts = g.nodes.zipIdx.map row :=
    FactTable.ofRows_of_pairwise (labels ▸ pairwise_labels built)
  obtain ⟨-, rfl⟩ := build_eq_ok.1 built
  rw [rows, labels, labels_ofStatement]

end FlowGraph

/-- Results solved on a graph, from scratch or from others, have under each label of a statement the
states of the node that the graph finds there, and under the label of the exit those of the exit, if
it is the first with that label; they have none just where the graph finds no node. The lookups of a
program's graph are inverse to each other, and every report on the program has under each label what
it says of the states that the results have there, in the order of the points with the exit last. -/
theorem lookups_agree :
    (∀ (g : FlowGraph) (σ : Type) [DecidableEq σ] (f : Framework σ) (A : Results σ → Prop)
      (s : Iteration σ) (r : Results σ) (l : Label), (f.kind g).Reachable A s →
      (f.kind g).Solves s r → g.Determines l →
        r.Finds g l ∧ ((∀ r, A r → r.Shaped) → r.Misses g l)) ∧
    (∀ (g : FlowGraph) (p : GenKill) (A : Results BitSet → Prop) (s : Solver)
      (r : Results BitSet) (l : Label), (∀ r, A r → r.Shaped) → (p.kind g).Reachable A s →
      s.solve = .ok r → g.Determines l → r.Finds g l ∧ r.Misses g l) ∧
    ∀ (s : Statement) (g : FlowGraph), FlowGraph.build s = .ok g →
      (∀ n l, g.find? l = some n ↔ g.label? n = some l) ∧
      (∀ n < g.nodeCount, ∃ l, g.label? n = some l) ∧
      ∀ config, ∃ r report, (g.solver config).solve = .ok r ∧ s.analyze config = .ok report ∧
        (∀ l, r.Finds g l ∧ r.Misses g l ∧
          report.entry? l = (r.entry? l).map (g.describe config) ∧
          report.exit? l = (r.exit? l).map (g.describe config)) ∧
        report.facts.map Prod.fst =
          (List.range s.size).map (fun i => .stmt (i + 1)) ++ [.exit] := by
  refine ⟨?_, ?_, ?_⟩
  · intro g σ _ f A s r l reached solves determined
    exact ⟨Iteration.finds_of_solves reached solves determined, fun shaped =>
      Iteration.misses_of_solves shaped reached solves determined⟩
  · intro g p A s r l shaped reached solved determined
    exact Solver.finds_of_solve shaped reached solved determined
  · intro s g built
    refine ⟨fun n l => FlowGraph.find?_iff built, fun n lt => ?_, fun config => ?_⟩
    · have lt : n < g.labels.length := FlowGraph.length_labels.symm ▸ lt
      exact ⟨g.labels[n], FlowGraph.label?_eq.trans (List.getElem?_eq_getElem lt)⟩
    · let p := g.problem config.kind config.scope
      obtain ⟨k, -, r, solved, -⟩ := Solver.solve_eq_sweeps g p config.strategy
      have begun : (p.kind g).Reachable (fun _ => False) (g.solver config) :=
        SolverKind.Reachable.start.withStrategy config.strategy
      have reported := Statement.analyze_of_build built (FlowGraph.analyze_of_solve solved)
      refine ⟨r, _, solved, reported, fun l => ?_, FlowGraph.map_fst_facts built⟩
      obtain ⟨finds, misses⟩ := Solver.finds_of_solve nofun begun solved
        (FlowGraph.determines_of_build built l)
      exact ⟨finds, misses, FlowGraph.entry?_ofResults built finds misses⟩

/-- The third statement of the looping graph is its last node, behind the exit; the countdown has no
fourth statement. -/
theorem lookups_agree_countdown :
    (∃ r, ((GenKill.selfLoop .forward .union).framework.kind GenKill.selfLoopGraph).Solves
        (Iteration.new (GenKill.selfLoop .forward .union).framework GenKill.selfLoopGraph) r ∧
      r.entry? (.stmt 3) = r.entryStates[3]?) ∧
    (∃ r, (Solver.new GenKill.selfLoopGraph (GenKill.selfLoop .forward .union)).solve = .ok r ∧
      r.exit? .exit = r.exitStates[2]? ∧ r.exit? .exit ≠ none) ∧
    FlowGraph.build .countdown = .ok (.ofStatement .countdown) ∧
      ∃ r report, ((FlowGraph.ofStatement .countdown).solver {}).solve = .ok r ∧
        Statement.countdown.analyze {} = .ok report ∧ r.entry? (.stmt 4) = none ∧
        report.entry? (.stmt 4) = none ∧
        report.facts.map Prod.fst = [.stmt 1, .stmt 2, .stmt 3, .exit] := by
  obtain ⟨iterations, solvers, programs⟩ := lookups_agree
  let p := GenKill.selfLoop .forward .union
  have follows := Solver.follows_iteration GenKill.selfLoopGraph p
  obtain ⟨k, -, r, solved, -⟩ := Solver.solve_eq_sweeps GenKill.selfLoopGraph p .gaussSeidel
  have solves := follows.solves (Solver.treats_new _ p) (Solver.solves_of_solve solved)
  rw [Solver.iteration_new] at solves
  refine ⟨⟨r, solves, ?_⟩, ⟨r, solved, ?_⟩, FlowGraph.build_countdown, ?_⟩
  · exact (iterations _ _ _ (fun _ => False) _ r (.stmt 3) .start solves trivial).1.entry
  · have determined : GenKill.selfLoopGraph.Determines .exit := ⟨by decide, by decide⟩
    obtain ⟨finds, misses⟩ :=
      solvers _ p (fun _ => False) _ r .exit nofun .start solved determined
    exact ⟨finds.exit, mt misses.exit.1 nofun⟩
  · obtain ⟨-, -, reports⟩ := programs .countdown _ FlowGraph.build_countdown
    obtain ⟨r, report, solved, analyzed, under, rows⟩ := reports {}
    obtain ⟨-, misses, entry, -⟩ := under (.stmt 4)
    have absent : r.entry? (.stmt 4) = none := misses.entry.2 (by decide)
    exact ⟨r, report, solved, analyzed, absent, by rw [entry, absent]; rfl, rows⟩

end FlowAnalysis
