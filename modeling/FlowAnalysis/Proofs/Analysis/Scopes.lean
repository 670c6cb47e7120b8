import FlowAnalysis.Proofs.Analysis.AvailableExprs
import FlowAnalysis.Proofs.Solver.Descent

/-!
Scopes of available expressions. Main statements: with nested scope every state, after any number of
passes, holds the binary parts of what it holds; and nested scope finds available whatever top-level
scope does.
-/
namespace FlowAnalysis

namespace Confluence

/-- Whenever `x` tells of a bit, it tells of all bits that need that one. -/
def Heeds (c : Confluence) (needs : Nat → Nat → Prop) {n : Nat} (x : BitVec n) : Prop :=
  ∀ i j, needs i j → c.Tells x j → c.Tells x i

end Confluence

namespace GenKill

variable {p : GenKill} {g : FlowGraph} {needs : Nat → Nat → Prop} {v : Valuation p.size}

/-- Nothing in the problem tells of a bit and not of one that needs it. -/
structure Heeding (p : GenKill) (needs : Nat → Nat → Prop) : Prop where
  boundary : p.confluence.Heeds needs p.boundary
  initial : p.confluence.Heeds needs p.initial
  transfer : ∀ n x, p.confluence.Heeds needs x → p.confluence.Heeds needs (p.transfer n x)

theorem Heeding.inState (h : p.Heeding needs)
    (before : ∀ n, p.confluence.Heeds needs (v.before n))
    (after : ∀ n, p.confluence.Heeds needs (v.after n)) (n : Nat) :
    p.confluence.Heeds needs (p.inState g v n) := by
  intro i j need told
  rw [tells_inState] at told ⊢
  obtain ⟨start, told⟩ | ⟨m, feeds, told⟩ | ⟨starved, told⟩ := told
  · exact Or.inl ⟨start, h.boundary i j need told⟩
  · exact Or.inr (Or.inl ⟨m, feeds, after m i j need told⟩)
  · exact Or.inr (Or.inr ⟨starved, before n i j need told⟩)

/-- No pass of any kind tells of a bit and not of one that needs it. -/
theorem Heeding.sweeps (h : p.Heeding needs) (schedule : Nat → Strategy) (order : List Nat)
    (k n : Nat) :
    p.confluence.Heeds needs ((p.sweeps g schedule order (p.initialValuation g) k).before n) ∧
      p.confluence.Heeds needs ((p.sweeps g schedule order (p.initialValuation g) k).after n) := by
  revert n
  refine sweeps_induction (P := fun v => ∀ n, p.confluence.Heeds needs (v.before n) ∧
    p.confluence.Heeds needs (v.after n)) ?_ ?_
  · intro n
    refine ⟨?_, h.initial⟩
    rw [before_initialValuation]
    split
    · exact h.boundary
    · exact h.initial
  · intro u w m _ hu hw n
    have evaluated := h.inState (g := g) (fun n => (hu n).1) fun n => (hu n).2
    by_cases same : n = m
    · subst same
      rw [Valuation.patch_sameAt.1, Valuation.patch_sameAt.2]
      exact ⟨evaluated n, h.transfer n _ (evaluated n)⟩
    · rw [(Valuation.patch_sameAt_of_ne same).1, (Valuation.patch_sameAt_of_ne same).2]
      exact hw n

end GenKill

namespace Expr

theorem PartOf.trans {a b c : Expr} (h : a.PartOf b) (k : b.PartOf c) : a.PartOf c := by
  induction k with
  | whole => exact h
  | left _ ih => exact .left ih
  | right _ ih => exact .right ih

/-- A part reads no variable that the whole does not read. -/
theorem PartOf.reads {e c : Expr} {x : Variable} (h : e.PartOf c) (hx : x ∈ e.reads) :
    x ∈ c.reads := by
  induction h with
  | whole => exact hx
  | left _ ih => exact List.mem_append_left _ ih
  | right _ ih => exact List.mem_append_right _ ih

/-- With what the list holds, it holds every binary part of that. -/
def HoldsParts (es : List Expr) : Prop :=
  ∀ e ∈ es, ∀ sub : Expr, sub.isBinary = true → sub.PartOf e → sub ∈ es

theorem holdsParts_binarySubexprs (c : Expr) : HoldsParts c.binarySubexprs := by
  intro e he sub binary within
  exact mem_binarySubexprs.2 ⟨binary, within.trans (mem_binarySubexprs.1 he).2⟩

end Expr

/-- Nested scope looks at all that any scope looks at. -/
theorem Scope.candidates_subset_nested (scope : Scope) (c : Expr) :
    scope.candidates c ⊆ nested.candidates c := by
  intro e mem
  cases scope with
  | nested => exact mem
  | topLevel =>
    obtain ⟨binary, same⟩ := mem_candidates.1 mem
    obtain rfl : e = c := same
    exact mem_candidates.2 ⟨binary, binary, .whole⟩

namespace Node

variable {node : Node} {scope : Scope} {e sub : Expr}

theorem mem_candidates_iff :
    e ∈ node.candidates scope ↔ ∃ c, node.expr? = some c ∧ e ∈ scope.candidates c := by
  rw [candidates]
  cases node.expr? with
  | none => simp
  | some c => simp

/-- A node that evaluates an expression evaluates its parts, and changes none of them if it does
not change the expression. -/
theorem Computes.part (h : node.Computes .nested e) (binary : sub.isBinary = true)
    (within : sub.PartOf e) : node.Computes .nested sub := by
  obtain ⟨label, action⟩ := node
  cases action with
  | skip => exact h.elim
  | assign x r =>
    exact ⟨Expr.holdsParts_binarySubexprs r e h.1 sub binary within,
      fun reads => h.2 (within.reads reads)⟩
  | test c => exact Expr.holdsParts_binarySubexprs c e h sub binary within
  | exit => exact h.elim

/-- A node that changes a part changes the whole. -/
theorem Changes.whole (h : node.Changes sub) (within : sub.PartOf e) : node.Changes e := by
  obtain ⟨x, assigned, reads⟩ := h
  exact ⟨x, assigned, within.reads reads⟩

theorem Computes.nested (h : node.Computes scope e) : node.Computes .nested e := by
  obtain ⟨label, action⟩ := node
  cases action with
  | skip => exact h.elim
  | assign x r => exact ⟨scope.candidates_subset_nested r h.1, h.2⟩
  | test c => exact scope.candidates_subset_nested c h
  | exit => exact h.elim

end Node

namespace FlowGraph

variable {g : FlowGraph} {scope : Scope} {e sub : Expr} {n i j : Nat}

/-- The first bit stands for an expression and the second for a binary part of it. -/
def NeedsPart (g : FlowGraph) (i j : Nat) : Prop :=
  ∃ e sub, (g.trackedExprs .nested)[i]? = some e ∧ (g.trackedExprs .nested)[j]? = some sub ∧
    sub.isBinary = true ∧ sub.PartOf e

theorem holdsParts_occurrences (g : FlowGraph) : Expr.HoldsParts (g.occurrences .nested) := by
  intro e mem sub binary within
  obtain ⟨node, hnode, candidate⟩ := List.mem_flatMap.1 mem
  obtain ⟨c, evaluated, whole⟩ := Node.mem_candidates_iff.1 candidate
  refine List.mem_flatMap.2 ⟨node, hnode, Node.mem_candidates_iff.2 ⟨c, evaluated, ?_⟩⟩
  exact Expr.holdsParts_binarySubexprs c e whole sub binary within

/-- An expression is missing after a node that does not compute it, if it was missing before or the
node changes it. -/
theorem missing_transfer_iff (fact : (g.trackedExprs scope)[i]? = some e)
    {x : BitVec (g.availableExprs scope).problem.size} :
    ((g.availableExprs scope).problem.transfer n x).getLsbD i = false ↔
      (¬ ∃ node, g.node? n = some node ∧ node.Computes scope e) ∧
        (x.getLsbD i = true → ∃ node, g.node? n = some node ∧ node.Changes e) := by
  have tracked : e ∈ g.occurrences scope := mem_trackedExprs.1 (List.mem_of_getElem? fact)
  rw [← Bool.not_eq_true, Analysis.getLsbD_transfer_problem fact, mem_genAt_availableExprs,
    mem_killAt_availableExprs tracked, not_or, not_and, not_not]

/-- Where a binary part is missing, so is the expression: at the start, where nothing or everything
is held, and after each node, which takes the parts of what it adds and leaves the parts of what it
keeps. -/
theorem heeding_nested (g : FlowGraph) :
    (g.availableExprs .nested).problem.Heeding g.NeedsPart where
  boundary := by
    intro i j ⟨e, sub, ofWhole, _⟩ _
    have lt : i < (g.availableExprs .nested).problem.size := Analysis.lt_of_fact ofWhole
    exact Confluence.tells_intersection.2 ⟨lt, BitVec.getLsbD_zero⟩
  initial := fun i j _ missing => absurd missing Confluence.not_tells_top
  transfer := by
    intro n x heeds i j need missing
    have before := heeds i j need
    obtain ⟨e, sub, ofWhole, ofPart, binary, within⟩ := need
    have lt : i < (g.availableExprs .nested).problem.size := Analysis.lt_of_fact ofWhole
    obtain ⟨ltPart, missing⟩ := Confluence.tells_intersection.1 missing
    obtain ⟨computesNot, lost⟩ := (missing_transfer_iff ofPart).1 missing
    refine Confluence.tells_intersection.2 ⟨lt, (missing_transfer_iff ofWhole).2 ⟨?_, ?_⟩⟩
    · intro ⟨node, at_n, computes⟩
      exact computesNot ⟨node, at_n, computes.part binary within⟩
    · intro kept
      have keptPart : x.getLsbD j = true := by
        rw [← Bool.not_eq_false]
        intro gone
        have told := Confluence.tells_intersection.1
          (before (Confluence.tells_intersection.2 ⟨ltPart, gone⟩))
        simp [kept] at told
      obtain ⟨node, at_n, changes⟩ := lost keptPart
      exact ⟨node, at_n, changes.whole within⟩

theorem holdsParts_holding {x : BitVec (g.availableExprs .nested).problem.size}
    (heeds : Confluence.intersection.Heeds g.NeedsPart x) :
    Expr.HoldsParts ((g.availableExprs .nested).holding (.ofBits x)) := by
  intro e mem sub binary within
  obtain ⟨i, held, ofWhole⟩ := Analysis.mem_holding.1 mem
  have tracked := mem_trackedExprs.1 (List.mem_of_getElem? ofWhole)
  obtain ⟨j, ofPart⟩ := List.getElem?_of_mem
    (mem_trackedExprs.2 (holdsParts_occurrences g e tracked sub binary within))
  refine Analysis.mem_holding.2 ⟨j, ?_, ofPart⟩
  rw [BitSet.mem_ofBits, ← Bool.not_eq_false]
  intro missing
  have told := heeds i j ⟨e, sub, ofWhole, ofPart, binary, within⟩
    (Confluence.tells_intersection.2 ⟨Analysis.lt_of_fact ofPart, missing⟩)
  have gone := (Confluence.tells_intersection.1 told).2
  rw [BitSet.mem_ofBits.1 held] at gone
  cases gone

/-- With nested scope, every state that any passes reach holds the binary parts of the expressions
that it holds. -/
theorem nested_states_hold_parts (g : FlowGraph) (schedule : Nat → Strategy) (k : Nat) :
    ∃ s changed,
      (Solver.new g (g.availableExprs .nested).problem).follow schedule k = .ok (s, changed) ∧
      ∀ n < g.nodeCount, ∃ entry exit,
        s.entryStates[n]? = some entry ∧ s.exitStates[n]? = some exit ∧
        Expr.HoldsParts ((g.availableExprs .nested).holding entry) ∧
        Expr.HoldsParts ((g.availableExprs .nested).holding exit) := by
  obtain ⟨s, changed, followed, shows⟩ :=
    Solver.follow_shows g (g.availableExprs .nested).problem schedule k
  have heeds := (heeding_nested g).sweeps (g := g) schedule (g.visitOrder .forward) k
  exact ⟨s, changed, followed, fun n lt => ⟨_, _, shows.entryAt lt, shows.exitAt lt,
    holdsParts_holding (heeds n).1, holdsParts_holding (heeds n).2⟩⟩

theorem mem_occurrences_nested (h : e ∈ g.occurrences scope) : e ∈ g.occurrences .nested := by
  obtain ⟨node, hnode, candidate⟩ := List.mem_flatMap.1 h
  obtain ⟨c, evaluated, mem⟩ := Node.mem_candidates_iff.1 candidate
  exact List.mem_flatMap.2 ⟨node, hnode, Node.mem_candidates_iff.2
    ⟨c, evaluated, scope.candidates_subset_nested c mem⟩⟩

theorem ComputesAlong.nested {ns : List Nat} (h : g.ComputesAlong scope ns e) :
    g.ComputesAlong .nested ns e := by
  obtain ⟨pre, m, post, whole, ⟨node, at_m, computes⟩, kept⟩ := h
  exact ⟨pre, m, post, whole, ⟨node, at_m, computes.nested⟩, kept⟩

section Solved

variable {v : Valuation (g.availableExprs scope).problem.size}
  {w : Valuation (g.availableExprs .nested).problem.size}
  (fine : (g.availableExprs .nested).problem.OverWalks g w)
include fine

/-- A node that takes no part keeps the initial value, which holds every tracked expression. -/
theorem trackedExprs_subset_idle (lt : n < g.nodeCount) (idle : ¬ g.Participates .forward n) :
    g.trackedExprs scope ⊆ (g.availableExprs .nested).holding (.ofBits (w.before n)) ∧
      g.trackedExprs scope ⊆ (g.availableExprs .nested).holding (.ofBits (w.after n)) := by
  have all : g.trackedExprs scope ⊆ (g.availableExprs .nested).holding
      (.ofBits (Confluence.intersection.top (g.availableExprs .nested).problem.size)) := by
    intro e mem
    obtain ⟨i, fact⟩ := List.getElem?_of_mem
      (mem_trackedExprs.2 (mem_occurrences_nested (mem_trackedExprs.1 mem)))
    exact Analysis.mem_holding.2 ⟨i, BitSet.mem_full.2 (Analysis.lt_of_fact fact), fact⟩
  obtain ⟨before, after⟩ := fine.idle n lt idle
  rw [before, after]
  exact ⟨all, all⟩

theorem holding_subset (coarse : (g.availableExprs scope).problem.OverWalks g v)
    (lt : n < g.nodeCount) :
    (g.availableExprs scope).holding (.ofBits (v.before n)) ⊆
        (g.availableExprs .nested).holding (.ofBits (w.before n)) ∧
      (g.availableExprs scope).holding (.ofBits (v.after n)) ⊆
        (g.availableExprs .nested).holding (.ofBits (w.after n)) := by
  by_cases hn : g.Participates .forward n
  · constructor
    · intro e mem
      obtain ⟨tracked, along⟩ :=
        (forall_carries_iff id).1 ((Analysis.mem_holding_before coarse hn).1 mem)
      exact (Analysis.mem_holding_before fine hn).2 ((forall_carries_iff id).2
        ⟨mem_occurrences_nested tracked, fun ns walk => (along ns walk).nested⟩)
    · intro e mem
      obtain ⟨tracked, along⟩ :=
        (forall_carries_iff (· ++ [n])).1 ((Analysis.mem_holding_after_iff_across coarse hn).1 mem)
      exact (Analysis.mem_holding_after_iff_across fine hn).2 ((forall_carries_iff (· ++ [n])).2
        ⟨mem_occurrences_nested tracked, fun ns walk => (along ns walk).nested⟩)
  · obtain ⟨before, after⟩ := trackedExprs_subset_idle fine lt hn
    exact ⟨fun e mem => before ((Analysis.holding_sublist _).subset mem),
      fun e mem => after ((Analysis.holding_sublist _).subset mem)⟩

end Solved

/-- Whatever is found available with top-level scope is found available there with nested scope, in
the states of every node and in the reports. -/
theorem nested_finds_topLevel (g : FlowGraph) (strategy again : Strategy) :
    ∃ r q coarse fine,
      (g.availableExprs .topLevel).solve g strategy = .ok r ∧
      (g.availableExprs .nested).solve g again = .ok q ∧
      (∀ n < g.nodeCount, ∃ entry exit entry' exit',
        r.entryStates[n]? = some entry ∧ r.exitStates[n]? = some exit ∧
        q.entryStates[n]? = some entry' ∧ q.exitStates[n]? = some exit' ∧
        (g.availableExprs .topLevel).holding entry ⊆ (g.availableExprs .nested).holding entry' ∧
        (g.availableExprs .topLevel).holding exit ⊆ (g.availableExprs .nested).holding exit') ∧
      g.analyze ⟨.availableExprs, strategy, .topLevel⟩ = .ok coarse ∧
      g.analyze ⟨.availableExprs, again, .nested⟩ = .ok fine ∧
      ∀ l ∈ g.labels, ∃ f f', coarse.find? l = some f ∧ fine.find? l = some f' ∧
        f.entry ⊆ f'.entry ∧ f.exit ⊆ f'.exit := by
  obtain ⟨r, v, solved, shows, walks⟩ := GenKill.solve_overWalks (g := g)
    (p := (g.availableExprs .topLevel).problem) strategy rfl
  obtain ⟨q, w, solved', shows', walks'⟩ := GenKill.solve_overWalks (g := g)
    (p := (g.availableExprs .nested).problem) again rfl
  have reported : g.analyze ⟨.availableExprs, strategy, .topLevel⟩ = _ :=
    Analysis.report_of_solve solved
  have reported' : g.analyze ⟨.availableExprs, again, .nested⟩ = _ :=
    Analysis.report_of_solve solved'
  refine ⟨r, q, _, _, solved, solved', fun n lt => ?_, reported, reported', fun l mem => ?_⟩
  · exact ⟨_, _, _, _, shows.entryAt lt, shows.exitAt lt, shows'.entryAt lt, shows'.exitAt lt,
      holding_subset walks' walks lt⟩
  · obtain ⟨n, lt, found⟩ := Report.exists_find?_ofResults mem
    refine ⟨_, _, found .., found .., ?_⟩
    rw [shows.entryAt lt, shows.exitAt lt, shows'.entryAt lt, shows'.exitAt lt]
    obtain ⟨before, after⟩ := holding_subset walks' walks lt
    exact ⟨List.map_subset _ before, List.map_subset _ after⟩

end FlowGraph
end FlowAnalysis
