import FlowAnalysis.Proofs.Analysis.LiveVariables
import FlowAnalysis.Proofs.Analysis.ReachingDefs
import FlowAnalysis.Proofs.Checked.Solver

/-!
Analyses with every access checked: sets are filled bit by bit, and a solver and a listing of edges
that check theirs make the report. Main statement: on every graph, whatever its labels, edges and
entry, every analysis has a report, the one of the analysis that does not check, and it has entries
for the labels of the nodes and no others.
-/
namespace FlowAnalysis
namespace Checked

/-- The bits of the facts in `xs`, each set in a universe of all facts. -/
def bits {α : Type} [DecidableEq α] (facts xs : List α) : Option (BitVec facts.length) := do
  let s ← (BitSet.ofList facts.length (xs.filterMap facts.idxOf?)).toOption
  (s.within facts.length).toOption

/-- The problem of an analysis whose sets are filled bit by bit. -/
def problem {α : Type} [DecidableEq α] (a : Analysis α) : Option GenKill := do
  let gen ← a.gen.mapM (bits a.facts)
  let kill ← a.kill.mapM (bits a.facts)
  return { a.problem with gen := gen.toArray, kill := kill.toArray }

def report {α : Type} [DecidableEq α] (a : Analysis α) (g : FlowGraph) (config : Config)
    (fact : α → Fact) : Option Report := do
  let p ← problem a
  let r ← solve g p config.strategy
  let edges ← edges g
  return { Report.ofResults config.kind g r (fun s => (a.holding s).map fact) with edges := edges }

/-- The report that `config` asks for. -/
def analyze (config : Config) (g : FlowGraph) : Option Report :=
  match config.kind with
  | .availableExprs => report (g.availableExprs config.scope) g config .expr
  | .reachingDefs => report g.reachingDefs g config fun d => .definition d.label d.target
  | .liveVariables => report g.liveVariables g config .var

/-- Each fact has a bit of its own. -/
theorem bits_eq {α : Type} [DecidableEq α] {facts : List α} (nodup : facts.Nodup) (xs : List α) :
    bits facts xs = some (Analysis.indicator facts xs) := by
  have below : ∀ i ∈ xs.filterMap facts.idxOf?, i < facts.length := by
    intro i mem
    obtain ⟨x, -, place⟩ := List.mem_filterMap.1 mem
    exact (List.getElem?_eq_some_iff.1 ((idxOf?_eq_some_iff nodup).1 place)).1
  have filled : (xs.filterMap facts.idxOf?).foldl BitSet.add (.empty facts.length) =
      .ofBits (Analysis.indicator facts xs) := by
    refine BitSet.ext_mem (BitSet.size_foldl_add _ _) fun i => ?_
    refine BitSet.mem_foldl_add.trans (Iff.trans ?_ Analysis.getLsbD_indicator.symm)
    constructor
    · rintro (mem | ⟨mem, -⟩)
      · exact absurd mem BitSet.not_mem_empty
      · obtain ⟨x, hx, place⟩ := List.mem_filterMap.1 mem
        exact ⟨x, (idxOf?_eq_some_iff nodup).1 place, hx⟩
    · intro ⟨x, place, hx⟩
      have mem : i ∈ xs.filterMap facts.idxOf? :=
        List.mem_filterMap.2 ⟨x, hx, (idxOf?_eq_some_iff nodup).2 place⟩
      exact Or.inr ⟨mem, below i mem⟩
  rw [bits, BitSet.ofList_eq_ok below, filled]
  exact congrArg Except.toOption (BitSet.within_ofBits _)

theorem problem_eq {α : Type} [DecidableEq α] {a : Analysis α} (nodup : a.facts.Nodup) :
    problem a = some a.problem := by
  have gen : a.gen.mapM (bits a.facts) = some (a.gen.map (Analysis.indicator a.facts)) :=
    mapM_eq_pure fun xs _ => bits_eq nodup xs
  have kill : a.kill.mapM (bits a.facts) = some (a.kill.map (Analysis.indicator a.facts)) :=
    mapM_eq_pure fun xs _ => bits_eq nodup xs
  rw [problem, gen, kill]
  rfl

/-- An analysis of different facts, with sets for each node, has a report with an entry for each
label. -/
theorem report_eq {α : Type} [DecidableEq α] {a : Analysis α} {g : FlowGraph}
    (nodup : a.facts.Nodup) (gen : a.gen.length = g.nodeCount) (kill : a.kill.length = g.nodeCount)
    (config : Config) (fact : α → Fact) :
    ∃ r, report a g config fact = some r ∧ a.report g config fact = .ok r ∧
      ∀ l, (r.find? l).isSome ↔ l ∈ g.labels := by
  obtain ⟨results, checked, solved⟩ := solve_eq (g := g) (p := a.problem)
    (by simpa [Analysis.problem] using gen) (by simpa [Analysis.problem] using kill) config.strategy
  refine ⟨_, ?_, Analysis.report_of_solve solved, fun l => ?_⟩
  · rw [report, problem_eq nodup]
    change (solve g a.problem config.strategy >>= _) = _
    rw [checked, edges_eq]
    rfl
  · constructor
    · intro found
      obtain ⟨f, found⟩ := Option.isSome_iff_exists.1 found
      exact Report.mem_labels_of_find? found
    · intro mem
      obtain ⟨n, -, found⟩ := Report.exists_find?_ofResults mem
      rw [found]
      rfl

/-- Every analysis of every graph has a report: all that is read is there, all sets that meet are of
one universe, and the passes come to rest. It has entries for the labels of the nodes alone. -/
theorem exists_report (g : FlowGraph) (config : Config) :
    ∃ r, analyze config g = some r ∧ g.analyze config = .ok r ∧
      ∀ l, (r.find? l).isSome ↔ l ∈ g.labels := by
  have count : g.nodes.length = g.nodeCount := Array.length_toList
  obtain ⟨kind, strategy, scope⟩ := config
  cases kind with
  | availableExprs =>
    exact report_eq (a := g.availableExprs scope) (nodup_eraseDups _)
      (by simpa [FlowGraph.availableExprs] using count)
      (by simpa [FlowGraph.availableExprs] using count) _ _
  | reachingDefs =>
    exact report_eq (a := g.reachingDefs) (FlowGraph.nodup_definitions g)
      (by simpa [FlowGraph.reachingDefs] using count)
      (by simpa [FlowGraph.reachingDefs] using count) _ _
  | liveVariables =>
    exact report_eq (a := g.liveVariables)
      (Variable.nodup_ascending _)
      (by simpa [FlowGraph.liveVariables] using count)
      (by simpa [FlowGraph.liveVariables] using count) _ _

end Checked
end FlowAnalysis
