import FlowAnalysis.Proofs.Analysis.Carried
import FlowAnalysis.Proofs.Report

/-!
Reaching definitions. Main statement: the report on a program lists at a node exactly the
assignments from which some walk leads there without another assignment to their variable.
-/
namespace FlowAnalysis

def Definition.pair (D : Definition) : Label × Variable := (D.label, D.target)

namespace FlowGraph

variable {g : FlowGraph} {D E : Definition} {n : Nat}

/-- `D` is the assignment of a node under the node's label. -/
def Defines (g : FlowGraph) (D : Definition) : Prop :=
  ∃ node, g.node? D.node = some node ∧ node.label = D.label ∧ node.assigned? = some D.target

theorem Defines.assigns (h : g.Defines D) : g.Assigns D.node D.target := by
  obtain ⟨node, at_n, -, target⟩ := h
  exact ⟨node, at_n, target⟩

theorem definition?_eq_some {node : Node} : node.definition? n = some D ↔
    D.node = n ∧ node.label = D.label ∧ node.assigned? = some D.target := by
  obtain ⟨m, label, target⟩ := D
  simp only [Node.definition?, Option.map_eq_some_iff, Definition.mk.injEq]
  constructor
  · rintro ⟨x, assigned, rfl, rfl, rfl⟩
    exact ⟨rfl, rfl, assigned⟩
  · rintro ⟨rfl, rfl, assigned⟩
    exact ⟨target, assigned, rfl, rfl, rfl⟩

theorem exists_definition?_iff :
    (∃ node, g.node? n = some node ∧ node.definition? n = some D) ↔ D.node = n ∧ g.Defines D := by
  simp only [definition?_eq_some]
  constructor
  · rintro ⟨node, at_n, rfl, rest⟩
    exact ⟨rfl, node, at_n, rest⟩
  · rintro ⟨rfl, node, at_n, rest⟩
    exact ⟨node, at_n, rfl, rest⟩

theorem mem_zipIdx_nodes {node : Node} : (node, n) ∈ g.nodes.zipIdx ↔ g.node? n = some node := by
  rw [List.mem_zipIdx_iff_getElem?, nodes, Array.getElem?_toList]
  rfl

theorem mem_definitions : D ∈ g.definitions ↔ g.Defines D := by
  simp only [definitions, List.mem_filterMap, Prod.exists, mem_zipIdx_nodes]
  constructor
  · intro ⟨node, n, found⟩
    exact (exists_definition?_iff.1 ⟨node, found⟩).2
  · intro h
    obtain ⟨node, found⟩ := exists_definition?_iff.2 ⟨rfl, h⟩
    exact ⟨node, _, found⟩

/-- Definitions are in the order of their nodes, so all differ. -/
theorem nodup_definitions (g : FlowGraph) : g.definitions.Nodup := by
  have places : (g.nodes.zipIdx.map Prod.snd).Pairwise (· < ·) := by
    rw [List.zipIdx_map_snd]
    exact List.pairwise_lt_range'
  rw [definitions, List.Nodup, List.pairwise_filterMap]
  refine (List.pairwise_map.1 places).imp fun lt D hD E hE same => ?_
  obtain ⟨first, -⟩ := definition?_eq_some.1 hD
  obtain ⟨second, -⟩ := definition?_eq_some.1 hE
  rw [← first, ← second, same] at lt
  exact Nat.lt_irrefl _ lt

theorem mem_rivals : E ∈ g.rivals D ↔ g.Defines E ∧ E.target = D.target ∧ E ≠ D := by
  simp [rivals, mem_definitions]

theorem mem_genAt_reachingDefs :
    D ∈ g.reachingDefs.genAt n ↔ D.node = n ∧ g.Defines D := by
  have at_n : g.reachingDefs.gen[n]? =
      (g.node? n).map fun node => (node.definition? n).toList := by
    simp [reachingDefs, nodes, node?, Function.comp_def]
  rw [Analysis.genAt, Analysis.mem_getD_nodes at_n]
  simp only [Option.mem_toList, exists_definition?_iff]

/-- A definition is determined by its node. -/
theorem Defines.eq_of_node (hD : g.Defines D) (hE : g.Defines E) (same : D.node = E.node) :
    D = E := by
  obtain ⟨m, l, x⟩ := D
  obtain ⟨k, l', y⟩ := E
  obtain rfl : m = k := same
  obtain ⟨node, at_n, rfl, target⟩ := hD
  obtain ⟨node', at_n', rfl, target'⟩ := hE
  obtain rfl : node = node' := Option.some.inj (at_n.symm.trans at_n')
  obtain rfl : x = y := Option.some.inj (target.symm.trans target')
  rfl

theorem mem_killAt_reachingDefs (hD : g.Defines D) :
    D ∈ g.reachingDefs.killAt n ↔ D.node ≠ n ∧ g.Assigns n D.target := by
  have at_n : g.reachingDefs.kill[n]? =
      (g.node? n).map fun node => (node.definition? n).toList.flatMap g.rivals := by
    simp [reachingDefs, nodes, node?, Function.comp_def]
  rw [Analysis.killAt, Analysis.mem_getD_nodes at_n]
  simp only [List.mem_flatMap, Option.mem_toList, mem_rivals, hD, true_and]
  constructor
  · rintro ⟨node, at_n, E, defined, target, other⟩
    obtain ⟨rfl, hE⟩ := exists_definition?_iff.1 ⟨node, at_n, defined⟩
    refine ⟨fun same => other (hD.eq_of_node hE same), ?_⟩
    rw [target]
    exact hE.assigns
  · rintro ⟨other, node, at_n, assigned⟩
    refine ⟨node, at_n, ⟨n, node.label, D.target⟩, ?_, rfl, ?_⟩
    · exact definition?_eq_some.2 ⟨rfl, rfl, assigned⟩
    · exact fun same => other (congrArg Definition.node same)

/-- Definitions of one variable at one label are the same. -/
theorem Defines.eq_of_label {s : Statement} (built : build s = .ok g) (hD : g.Defines D)
    (hE : g.Defines E) (same : D.label = E.label) : D = E := by
  obtain ⟨a, at_D, labelD, -⟩ := id hD
  obtain ⟨b, at_E, labelE, -⟩ := id hE
  exact hD.eq_of_node hE (label_injective built at_D at_E (by rw [labelD, labelE, same]))

/-- Labels and variables of definitions of the graph, in the order of the labels. -/
structure ListsDefinitions (g : FlowGraph) (fs : List (Label × Variable)) : Prop where
  sound : ∀ f ∈ fs, ∃ D, g.Defines D ∧ f = D.pair
  nodup : fs.Nodup
  ascending : fs.Pairwise (·.1 < ·.1)

section Lists

variable {s : Statement} (built : build s = .ok g)
include built

theorem pairwise_label_definitions : g.definitions.Pairwise fun D E => D.label < E.label := by
  have ascending := pairwise_labels built
  rw [labels_eq_zipIdx, List.pairwise_map] at ascending
  rw [definitions, List.pairwise_filterMap]
  refine ascending.imp fun lt D hD E hE => ?_
  obtain ⟨-, labelD, -⟩ := definition?_eq_some.1 hD
  obtain ⟨-, labelE, -⟩ := definition?_eq_some.1 hE
  rw [← labelD, ← labelE]
  exact lt

/-- Along some walk to `n`, `D` is the last assignment to its variable. -/
theorem exists_carries_reachingDefs (hD : g.Defines D) :
    (∃ ns, g.FlowWalk .forward ns n ∧ g.reachingDefs.Carries ns D) ↔
      ∃ mid, Walk g.Step D.node (D.node :: mid) n ∧ ∀ m ∈ mid, ¬ g.Assigns m D.target := by
  rw [Analysis.exists_carries_iff]
  simp only [mem_genAt_reachingDefs, mem_killAt_reachingDefs hD]
  constructor
  · -- the node of `D` does not kill `D`, so the walk is cut where it leaves that node for good
    rintro ⟨_, mid, -, walk, ⟨rfl, -⟩, keep⟩
    obtain ⟨mid', walk', left, sub⟩ := Walk.leave (walk.mono fun _ _ => feeds_forward.1)
    refine ⟨mid', walk', fun m hm assigns => keep m (sub hm) ⟨?_, assigns⟩⟩
    rintro rfl
    exact left hm
  · intro ⟨mid, walk, keep⟩
    obtain ⟨node, at_D, -⟩ := id hD
    have reached := participates_of_build built .forward (Array.getElem?_eq_some_iff.1 at_D).1
    refine ⟨D.node, mid, (participates_iff.1 reached).2, ?_, ⟨rfl, hD⟩, ?_⟩
    · exact walk.mono fun _ _ => feeds_forward.2
    · exact fun m hm kill => keep m hm kill.2

theorem mem_map_pair {ds : List Definition} (sub : ds.Sublist g.definitions) (hD : g.Defines D) :
    D.pair ∈ ds.map Definition.pair ↔ D ∈ ds := by
  constructor
  · intro mem
    obtain ⟨E, hE, same⟩ := List.mem_map.1 mem
    have label : E.label = D.label := congrArg Prod.fst same
    rwa [← (mem_definitions.1 (sub.subset hE)).eq_of_label built hD label]
  · exact fun mem => List.mem_map_of_mem mem

theorem listsDefinitions_of_sublist {ds : List Definition} (sub : ds.Sublist g.definitions) :
    g.ListsDefinitions (ds.map Definition.pair) := by
  have ascending : (ds.map Definition.pair).Pairwise (·.1 < ·.1) := by
    rw [List.pairwise_map]
    exact (pairwise_label_definitions built).sublist sub
  refine ⟨?_, ascending.imp ?_, ascending⟩
  · intro f mem
    obtain ⟨D, hD, rfl⟩ := List.mem_map.1 mem
    exact ⟨D, mem_definitions.1 (sub.subset hD), rfl⟩
  · exact fun lt same => Label.ne_of_lt lt (congrArg Prod.fst same)

/-- On entry to a node, the report lists the definitions from which a walk leads to it without
another assignment to their variable in between; on exit from it, its own and those that it lets
through. -/
theorem reachingDefs_iff_exists_walk (strategy : Strategy) (scope : Scope) :
    ∃ r, s.analyze { kind := .reachingDefs, strategy, scope } = .ok r ∧
      ∀ n node, g.node? n = some node → ∃ entry exit : List (Label × Variable),
        r.entry? node.label = some (entry.map fun f => .definition f.1 f.2) ∧
        r.exit? node.label = some (exit.map fun f => .definition f.1 f.2) ∧
        (∀ D, g.Defines D → (D.pair ∈ entry ↔
          ∃ mid, Walk g.Step D.node (D.node :: mid) n ∧ ∀ m ∈ mid, ¬ g.Assigns m D.target)) ∧
        (∀ D, g.Defines D → (D.pair ∈ exit ↔
          n = D.node ∨ D.pair ∈ entry ∧ ¬ g.Assigns n D.target)) ∧
        g.ListsDefinitions entry ∧ g.ListsDefinitions exit := by
  obtain ⟨r, v, analyzed, walks, lists⟩ :=
    Statement.analyze_overWalks built ⟨.reachingDefs, strategy, scope⟩ g.reachingDefs
      (fun D => .definition D.label D.target) rfl
  refine ⟨r, analyzed, fun n node h => ?_⟩
  obtain ⟨hn, entry, exit⟩ := lists n node h
  have before := Analysis.holding_sublist (a := g.reachingDefs) (.ofBits (v.before n))
  have after := Analysis.holding_sublist (a := g.reachingDefs) (.ofBits (v.after n))
  refine ⟨_, _, ?_, ?_, ?_, ?_, listsDefinitions_of_sublist built before,
    listsDefinitions_of_sublist built after⟩
  · rw [entry, List.map_map]
    rfl
  · rw [exit, List.map_map]
    rfl
  · intro D hD
    rw [mem_map_pair built before hD, Analysis.mem_holding_before walks hn]
    exact (and_iff_right (mem_definitions.2 hD)).trans (exists_carries_reachingDefs built hD)
  · intro D hD
    rw [mem_map_pair built before hD, mem_map_pair built after hD,
      Analysis.mem_holding_after walks hn, mem_genAt_reachingDefs, mem_killAt_reachingDefs hD]
    have known : D ∈ g.reachingDefs.facts := mem_definitions.2 hD
    by_cases own : n = D.node
    · simp [own, known, hD]
    · simp [own, Ne.symm own, known]

end Lists

theorem reachingDefs_iff_exists_walk_countdown :
    build .countdown = .ok (ofStatement .countdown) ∧
      ∃ r, ∃ entry : List (Label × Variable),
        Statement.countdown.analyze ⟨.reachingDefs, .gaussSeidel, .topLevel⟩ = .ok r ∧
        r.entry? (.stmt 1) = some (entry.map fun f => .definition f.1 f.2) ∧
        ((.stmt 3, "x") ∈ entry ↔ ∃ mid, Walk (ofStatement .countdown).Step 2 (2 :: mid) 0 ∧
          ∀ m ∈ mid, ¬ (ofStatement .countdown).Assigns m "x") := by
  obtain ⟨r, analyzed, lists⟩ := reachingDefs_iff_exists_walk build_countdown .gaussSeidel .topLevel
  obtain ⟨entry, exit, listed, -, mem, -⟩ := lists 0 _ rfl
  exact ⟨build_countdown, r, entry, analyzed, listed, mem ⟨2, .stmt 3, "x"⟩ ⟨_, rfl, rfl, rfl⟩⟩

end FlowGraph
end FlowAnalysis
