import FlowAnalysis.Proofs.Analysis.AvailableExprs
import FlowAnalysis.Proofs.Analysis.LiveVariables
import FlowAnalysis.Proofs.Analysis.Numbering
import FlowAnalysis.Proofs.Analysis.ReachingDefs

/-!
What analyses answer about single facts, and what they list. Main statement: on every graph a state
holds an expression, a variable or, if labels tell the assignments, a label just if the facts that
are listed for it have it; these are as many as the state has elements, and all differ.
-/
namespace FlowAnalysis.FlowGraph

variable {g : FlowGraph} {scope : Scope} {x : Variable} {e : Expr} {l : Label} {s : BitSet}

section Expressions

theorem flatMap_candidates :
    (g.nodes.filterMap (·.expr?)).flatMap scope.candidates = g.occurrences scope := by
  rw [occurrences]
  induction g.nodes with
  | nil => rfl
  | cons node nodes ih =>
    rw [List.flatMap_cons, ← ih, Node.candidates]
    cases found : node.expr? with
    | none => rw [List.filterMap_cons_none found]; rfl
    | some c => rw [List.filterMap_cons_some found]; rfl

theorem facts_exprNumbering : (g.exprNumbering scope).facts.toList = g.trackedExprs scope := by
  rw [trackedExprs, ← occurrences, ← flatMap_candidates]
  exact ExprTable.toList_foldl _

theorem inverts_exprNumbering (e : Expr) (i : Nat) : (g.exprNumbering scope).index? e = some i ↔
    (g.exprNumbering scope).facts[i]? = some e := ExprTable.inverts _ e i

theorem serves_exprNumbering : (g.exprNumbering scope).Serves (g.availableExprs scope) :=
  Numbering.serves_of_facts facts_exprNumbering (nodup_eraseDups _) inverts_exprNumbering

/-- The expressions with numbers are the binary ones that the scope looks at where a node evaluates
an expression. -/
theorem mem_facts_exprNumbering : e ∈ (g.exprNumbering scope).facts ↔
    ∃ n node c, g.node? n = some node ∧ node.expr? = some c ∧ e.isBinary = true ∧
      scope.Covers c e := by
  rw [← Array.mem_toList_iff, facts_exprNumbering, mem_trackedExprs, ← flatMap_candidates]
  simp only [List.mem_flatMap, List.mem_filterMap, Scope.mem_candidates]
  constructor
  · rintro ⟨c, ⟨node, mem, found⟩, covered⟩
    obtain ⟨n, there⟩ := Array.mem_iff_getElem?.1 (Array.mem_toList_iff.1 mem)
    exact ⟨n, node, c, there, found, covered⟩
  · rintro ⟨n, node, c, there, found, covered⟩
    have mem : node ∈ g.nodes := Array.mem_toList_iff.2 (Array.mem_of_getElem? there)
    exact ⟨c, ⟨node, mem, found⟩, covered⟩

end Expressions

section Variables

theorem inverts_variableNumbering (x : Variable) (i : Nat) :
    g.variableNumbering.index? x = some i ↔ g.variableNumbering.facts[i]? = some x :=
  Variable.index?_eq_some_iff (Variable.pairwise_ascending _)

theorem serves_variableNumbering : g.variableNumbering.Serves g.liveVariables :=
  Numbering.serves_of_facts rfl (Variable.nodup_ascending _) inverts_variableNumbering

theorem mem_facts_variableNumbering :
    x ∈ g.variableNumbering.facts ↔ ∃ n, g.Reads n x ∨ g.Assigns n x := by
  rw [variableNumbering, List.mem_toArray, FlowGraph.variables, Variable.mem_ascending,
    List.mem_flatMap]
  simp only [List.mem_append, Option.mem_toList, mem_uses]
  constructor
  · rintro ⟨node, mem, used⟩
    obtain ⟨n, there⟩ := Array.mem_iff_getElem?.1 (Array.mem_toList_iff.1 mem)
    obtain assigned | ⟨c, found, read⟩ := used
    · exact ⟨n, .inr ⟨node, there, assigned⟩⟩
    · exact ⟨n, .inl ⟨node, c, there, found, read⟩⟩
  · rintro ⟨n, ⟨node, c, there, found, read⟩ | ⟨node, there, assigned⟩⟩
    · exact ⟨node, Array.mem_toList_iff.2 (Array.mem_of_getElem? there), .inr ⟨c, found, read⟩⟩
    · exact ⟨node, Array.mem_toList_iff.2 (Array.mem_of_getElem? there), .inl assigned⟩

end Variables

section Definitions

/-- Assignments at different nodes have different labels. -/
def TellsAssignments (g : FlowGraph) : Prop :=
  ∀ m n a b x y, g.node? m = some a → g.node? n = some b → a.assigned? = some x →
    b.assigned? = some y → a.label = b.label → m = n

theorem tellsAssignments_of_build {s : Statement} (built : build s = .ok g) : g.TellsAssignments :=
  fun _ _ _ _ _ _ first second _ _ same => label_injective built first second same

theorem TellsAssignments.eq_of_label (tells : g.TellsAssignments) {D E : Definition}
    (hD : g.Defines D) (hE : g.Defines E) (same : D.label = E.label) : D = E := by
  obtain ⟨a, first, labelD, assignedD⟩ := id hD
  obtain ⟨b, second, labelE, assignedE⟩ := id hE
  refine hD.eq_of_node hE (tells _ _ a b _ _ first second assignedD assignedE ?_)
  rw [labelD, labelE, same]

theorem getElem?_definitionNumbering (i : Nat) :
    g.definitionNumbering.facts[i]? = g.definitions[i]?.map Definition.pair := by
  rw [definitionNumbering, List.getElem?_toArray, List.getElem?_map]
  rfl

theorem index?_definitionNumbering : g.definitionNumbering.index? l = g.definitionIndex? l := by
  rw [definitionNumbering, definitionIndex?]
  dsimp only
  rw [List.findIdx?_toArray, List.findIdx?_map]
  rfl

theorem holds_definitionNumbering :
    g.definitionNumbering.holds (.packed s) l = g.definitionReaches s l := by
  rw [Numbering.holds, definitionReaches, index?_definitionNumbering]
  cases g.definitionIndex? l with
  | none => rfl
  | some i => exact WordSet.contains_packed

theorem listing_definitionNumbering :
    g.definitionNumbering.listing (.packed s) = (g.reachingDefs.holding s).map Definition.pair := by
  rw [Numbering.listing_packed, Analysis.holding, List.map_filterMap]
  exact List.filterMap_congr fun i _ => getElem?_definitionNumbering i

/-- A label that tells an assignment finds its number. -/
theorem inverts_definitionNumbering (tells : g.TellsAssignments) (l : Label) (i : Nat) :
    g.definitionNumbering.index? l = some i ↔
      ∃ d, g.definitionNumbering.facts[i]? = some d ∧ g.definitionNumbering.key d = l := by
  have defines (j : Nat) (lt : j < g.definitions.length) : g.Defines g.definitions[j] :=
    mem_definitions.1 (List.getElem_mem lt)
  rw [index?_definitionNumbering, definitionIndex?, List.findIdx?_eq_some_iff_getElem]
  simp only [getElem?_definitionNumbering, Option.map_eq_some_iff, exists_exists_and_eq_and,
    beq_iff_eq]
  constructor
  · rintro ⟨lt, here, -⟩
    exact ⟨_, List.getElem?_eq_getElem lt, here⟩
  · rintro ⟨D, there, label⟩
    obtain ⟨lt, rfl⟩ := List.getElem?_eq_some_iff.1 there
    refine ⟨lt, label, fun j earlier same => ?_⟩
    have one := tells.eq_of_label (defines j _) (defines i lt) (same.trans label.symm)
    exact Nat.ne_of_lt earlier ((nodup_definitions g).getElem_inj_iff.1 one)

end Definitions

/-- Expressions and variables find their numbers, and so do labels if they tell the assignments; the
expressions are those that the scope looks at, the variables those that are read or assigned. What
sets of numbers hold is what they list, each fact once. -/
theorem listings_agree (g : FlowGraph) :
    (∀ scope, (g.exprNumbering scope).Agrees ∧
      (g.exprNumbering scope).Serves (g.availableExprs scope) ∧
      ∀ e, e ∈ (g.exprNumbering scope).facts ↔ ∃ n node c, g.node? n = some node ∧
        node.expr? = some c ∧ e.isBinary = true ∧ scope.Covers c e) ∧
    (g.variableNumbering.Agrees ∧ g.variableNumbering.Serves g.liveVariables ∧
      ∀ x, x ∈ g.variableNumbering.facts ↔ ∃ n, g.Reads n x ∨ g.Assigns n x) ∧
    (g.TellsAssignments → g.definitionNumbering.Agrees) ∧
    (∀ s, build s = .ok g → g.TellsAssignments) ∧
    ∀ s, (∀ l, g.definitionNumbering.index? l = g.definitionIndex? l ∧
        g.definitionNumbering.holds (.packed s) l = g.definitionReaches s l) ∧
      g.definitionNumbering.listing (.packed s) =
        (g.reachingDefs.holding s).map Definition.pair := by
  refine ⟨fun scope => ⟨?_, serves_exprNumbering, fun e => mem_facts_exprNumbering⟩,
    ⟨?_, serves_variableNumbering, fun x => mem_facts_variableNumbering⟩, fun tells => ?_,
    fun s => tellsAssignments_of_build, fun s => ⟨fun l => ?_, listing_definitionNumbering⟩⟩
  · refine Numbering.agrees_of_inverts fun e i => ?_
    simpa [exprNumbering] using inverts_exprNumbering e i
  · refine Numbering.agrees_of_inverts fun x i => ?_
    simpa [variableNumbering] using inverts_variableNumbering x i
  · exact Numbering.agrees_of_inverts (inverts_definitionNumbering tells)
  · exact ⟨index?_definitionNumbering, holds_definitionNumbering⟩

/-- The second of the two assignments of the countdown is that at its third point. -/
theorem listings_agree_countdown :
    build .countdown = .ok (ofStatement .countdown) ∧
      (ofStatement .countdown).TellsAssignments ∧
      (ofStatement .countdown).definitionNumbering.holds (.packed (.ofBits 0b10#2)) (.stmt 3) ∧
      ((ofStatement .countdown).definitionNumbering.listing (.packed (.ofBits 0b10#2))).length =
        (WordSet.packed (.ofBits 0b10#2)).count := by
  obtain ⟨-, -, agrees, tells, -⟩ := listings_agree (ofStatement .countdown)
  have tells := tells .countdown build_countdown
  have formed := WordSet.wellFormed_packed (.ofBits 0b10#2)
  refine ⟨build_countdown, tells, ((agrees tells).answers _ formed _).2 ⟨(.stmt 3, "x"), ?_, rfl⟩,
    (agrees tells).length _ formed rfl⟩
  exact Numbering.mem_listing_packed.2 ⟨1, by decide, rfl⟩

/-- Where two assignments share a label, a state with the second alone lists it and yet holds
nothing under the label. -/
example :
    let g : FlowGraph :=
      { graph := .ofEdges #[⟨.stmt 1, .assign "x" (.const 0)⟩, ⟨.stmt 1, .assign "y" (.const 0)⟩,
          ⟨.exit, .exit⟩] #[] (by decide)
        entry := 0
        exit := 2
        exit_lt := by decide }
    g.reachingDefs.holding (.ofBits 0b10#2) = [⟨1, .stmt 1, "y"⟩] ∧
      g.definitionReaches (.ofBits 0b10#2) (.stmt 1) = false := by
  decide

end FlowAnalysis.FlowGraph
