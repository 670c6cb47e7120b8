import FlowAnalysis.Proofs.Analysis.LiveVariables
import FlowAnalysis.Proofs.Analysis.ReachingDefs

/-!
Dead assignments, as two analyses see them. Main statement: a variable is live after an assignment
to it exactly when the assignment reaches a node that reads the variable.
-/
namespace FlowAnalysis
namespace FlowGraph

variable {g : FlowGraph} {D : Definition} {n : Nat}

/-- A walk from the assignment `D` comes to `n` with no other assignment to its variable in
between. -/
def Reaches (g : FlowGraph) (D : Definition) (n : Nat) : Prop :=
  ∃ mid, Walk g.Step D.node (D.node :: mid) n ∧ ∀ m ∈ mid, ¬ g.Assigns m D.target

section Reports

variable {s : Statement} (built : build s = .ok g) (strategy : Strategy) (scope : Scope)
include built

/-- The report on reaching definitions lists on entry to a node the assignments that reach it. -/
theorem exists_entry_iff_reaches :
    ∃ r, s.analyze { kind := .reachingDefs, strategy, scope } = .ok r ∧
      ∀ n node, g.node? n = some node → ∃ entry, r.entry? node.label = some entry ∧
        ∀ D, g.Defines D → (.definition D.label D.target ∈ entry ↔ g.Reaches D n) := by
  obtain ⟨r, v, analyzed, walks, lists⟩ :=
    Statement.analyze_overWalks built ⟨.reachingDefs, strategy, scope⟩ g.reachingDefs
      (fun D => .definition D.label D.target) rfl
  refine ⟨r, analyzed, fun n node h => ?_⟩
  obtain ⟨hn, entry, -⟩ := lists n node h
  refine ⟨_, entry, fun D hD => ?_⟩
  have sub := Analysis.holding_sublist (a := g.reachingDefs) (.ofBits (v.before n))
  have listed : Fact.definition D.label D.target ∈
      (g.reachingDefs.holding (.ofBits (v.before n))).map
        (fun D => Fact.definition D.label D.target) ↔
      D ∈ g.reachingDefs.holding (.ofBits (v.before n)) := by
    rw [← mem_map_pair built sub hD]
    simp [Definition.pair]
  refine listed.trans ((Analysis.mem_holding_before walks hn).trans ?_)
  exact (and_iff_right (mem_definitions.2 hD)).trans (exists_carries_reachingDefs built hD)

/-- The report on live variables lists on exit from a node what a walk from there reads first. -/
theorem exists_exit_iff_read :
    ∃ r, s.analyze { kind := .liveVariables, strategy, scope } = .ok r ∧
      ∀ n node, g.node? n = some node → ∃ exit, r.exit? node.label = some exit ∧
        ∀ x, .var x ∈ exit ↔
          ∃ mid m, Walk g.Step n (n :: mid) m ∧ g.Reads m x ∧ ∀ k ∈ mid, ¬ g.Assigns k x := by
  obtain ⟨r, v, analyzed, walks, lists⟩ :=
    Statement.analyze_overWalks built ⟨.liveVariables, strategy, scope⟩ g.liveVariables .var rfl
  refine ⟨r, analyzed, fun n node h => ?_⟩
  obtain ⟨hn, -, exit⟩ := lists n node h
  refine ⟨_, exit, fun x => ?_⟩
  refine Iff.trans ?_ (mem_holding_liveVariables built walks hn)
  exact List.mem_map_of_injective fun _ _ => Fact.var.inj

end Reports

/-- Whatever strategies the two analyses use: a variable is live after an assignment to it exactly
when some node reads the variable and the assignment reaches that node. -/
theorem live_after_iff_reaches_reader {s : Statement} (built : build s = .ok g)
    (forLive forReaching : Strategy) (scope scope' : Scope) :
    ∃ live reaching,
      s.analyze { kind := .liveVariables, strategy := forLive, scope } = .ok live ∧
      s.analyze { kind := .reachingDefs, strategy := forReaching, scope := scope' } = .ok reaching ∧
      ∀ D, g.Defines D → ∃ exit, live.exit? D.label = some exit ∧
        (.var D.target ∈ exit ↔ ∃ u node entry, g.node? u = some node ∧ g.Reads u D.target ∧
          reaching.entry? node.label = some entry ∧ .definition D.label D.target ∈ entry) := by
  obtain ⟨live, analyzedLive, listsLive⟩ := exists_exit_iff_read built forLive scope
  obtain ⟨reaching, analyzed, lists⟩ := exists_entry_iff_reaches built forReaching scope'
  refine ⟨live, reaching, analyzedLive, analyzed, fun D hD => ?_⟩
  obtain ⟨own, at_D, label, -⟩ := id hD
  obtain ⟨exit, listed, mem⟩ := listsLive D.node own at_D
  refine ⟨exit, label ▸ listed, (mem D.target).trans ⟨?_, ?_⟩⟩
  · intro ⟨mid, u, walk, reads, kept⟩
    obtain ⟨node, e, at_u, -⟩ := id reads
    obtain ⟨entry, listed, mem⟩ := lists u node at_u
    exact ⟨u, node, entry, at_u, reads, listed, (mem D hD).2 ⟨mid, walk, kept⟩⟩
  · intro ⟨u, node, entry, at_u, reads, listed, known⟩
    obtain ⟨entry', listed', mem⟩ := lists u node at_u
    obtain rfl : entry = entry' := Option.some.inj (listed.symm.trans listed')
    obtain ⟨mid, walk, kept⟩ := (mem D hD).1 known
    exact ⟨mid, u, walk, reads, kept⟩

/-- The second assignment of the countdown reads and writes its own variable, and reaches itself
round the loop. -/
theorem live_after_iff_reaches_reader_countdown :
    build .countdown = .ok (ofStatement .countdown) ∧
      ∃ live reaching exit,
        Statement.countdown.analyze ⟨.liveVariables, .jacobi, .topLevel⟩ = .ok live ∧
        Statement.countdown.analyze ⟨.reachingDefs, .gaussSeidel, .topLevel⟩ = .ok reaching ∧
        live.exit? (.stmt 3) = some exit ∧
        (.var "x" ∈ exit ↔ ∃ u node entry, (ofStatement .countdown).node? u = some node ∧
          (ofStatement .countdown).Reads u "x" ∧
          reaching.entry? node.label = some entry ∧ .definition (.stmt 3) "x" ∈ entry) := by
  obtain ⟨live, reaching, analyzedLive, analyzed, agree⟩ :=
    live_after_iff_reaches_reader build_countdown .jacobi .gaussSeidel .topLevel .topLevel
  obtain ⟨exit, listed, mem⟩ := agree ⟨2, .stmt 3, "x"⟩ ⟨_, rfl, rfl, rfl⟩
  exact ⟨build_countdown, live, reaching, exit, analyzedLive, analyzed, listed, mem⟩

end FlowGraph
end FlowAnalysis
