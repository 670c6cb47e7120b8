import FlowAnalysis.Proofs.Analysis.AvailableExprs
import FlowAnalysis.Proofs.FlowGraph.Simulation

/-!
What available expressions mean for executions. Main statement: when an execution comes to a point,
it has evaluated every expression that is available there at some earlier step, to the value that
the expression still has.
-/
namespace FlowAnalysis

universe u

variable {V : Type u}

/-- What the step to come evaluates, if it is a test or an assignment. -/
def Execution.evaluates? (x : Execution V) : Option Expr :=
  match x.pending with
  | (_, .assign _ e) :: _ => some e
  | (_, .loop c _) :: _ => some c
  | (_, .branch c _ _) :: _ => some c
  | _ => none

theorem Execution.next_cases (x : Execution V) : x.next = [] ∨ ∃ n, x.next = [n] := by
  obtain ⟨pending, store⟩ := x
  cases pending with
  | nil => exact Or.inl rfl
  | cons p rest =>
    simp only [next]
    split
    next => exact Or.inr ⟨_, rfl⟩
    next => exact Or.inl rfl

/-- Some step before step `k` has evaluated `e`, as far as the scope looks, and its value was then
what it is now. -/
def Evaluator.Knows (m : Evaluator V) (s : Statement) (σ : Variable → V) (scope : Scope) (k : Nat)
    (e : Expr) : Prop :=
  ∃ j < k, ∃ c, (m.run s σ j).evaluates? = some c ∧ scope.Covers c e ∧
    m.eval e (m.run s σ j).store = m.eval e (m.run s σ k).store

namespace Node

variable {scope : Scope} {node : Node} {e : Expr}

theorem Computes.not_changes (h : node.Computes scope e) : ¬ node.Changes e := by
  obtain ⟨label, action⟩ := node
  rintro ⟨x, assigned, mem⟩
  cases action with
  | assign y r =>
    obtain rfl : y = x := Option.some.inj assigned
    exact h.2 mem
  | _ => cases assigned

theorem Computes.covers (h : node.Computes scope e) :
    ∃ c, node.expr? = some c ∧ scope.Covers c e := by
  obtain ⟨label, action⟩ := node
  cases action with
  | skip => exact h.elim
  | assign x r => exact ⟨r, rfl, (Scope.mem_candidates.1 h.1).2⟩
  | test c => exact ⟨c, rfl, (Scope.mem_candidates.1 h).2⟩
  | exit => exact h.elim

end Node

namespace Evaluator

variable {m : Evaluator V} {s : Statement} {σ : Variable → V} {scope : Scope} {k : Nat} {e : Expr}

/-- What is known stays known over a step that keeps the value. -/
theorem Knows.succ (h : m.Knows s σ scope k e)
    (kept : m.eval e (m.run s σ (k + 1)).store = m.eval e (m.run s σ k).store) :
    m.Knows s σ scope (k + 1) e := by
  obtain ⟨j, lt, c, evaluates, covers, value⟩ := h
  exact ⟨j, Nat.lt_succ_of_lt lt, c, evaluates, covers, value.trans kept.symm⟩

/-- An action that changes no variable of `e` keeps its value. -/
theorem eval_effect {l : Label} {a : Action} (keep : ¬ (Node.mk l a).Changes e) :
    m.eval e (m.effect σ (some a)) = m.eval e σ := by
  cases a with
  | assign x r =>
    refine m.eval_congr e _ _ fun y mem => Function.update_of_ne ?_ _ _
    rintro rfl
    exact keep ⟨y, rfl, mem⟩
  | _ => rfl

end Evaluator

namespace FlowGraph

variable {g : FlowGraph} {s : Statement} {scope : Scope} {e : Expr} {m : Evaluator V}
  {x : Execution V}

/-- The point that comes next evaluates what its node does. -/
theorem Placed.evaluates?_eq (h : g.Placed x.pending) {n : Nat} (next : x.next = [n]) {node : Node}
    (at_n : g.node? n = some node) : x.evaluates? = node.expr? := by
  obtain ⟨pending, store⟩ := x
  cases pending with
  | nil => cases next
  | cons p rest =>
    obtain ⟨i, t⟩ := p
    cases ha : t.action? with
    | none => simp [Execution.next, ha] at next
    | some a =>
      obtain rfl : i = n := by simpa [Execution.next, ha] using next
      obtain rfl := Option.some.inj ((h.1.2.action ha).symm.trans at_n)
      cases t with
      | seq body => cases ha
      | _ =>
        obtain rfl := Option.some.inj ha
        rfl

/-- A step past no point, or past one that changes no variable of `e`, keeps the value of `e`. -/
theorem Placed.eval_step (h : g.Placed x.pending)
    (keep : ∀ n ∈ x.next, ∀ node, g.node? n = some node → ¬ node.Changes e) :
    m.eval e (m.step x).store = m.eval e x.store := by
  obtain ⟨pending, store⟩ := x
  cases pending with
  | nil => rfl
  | cons p rest =>
    obtain ⟨i, t⟩ := p
    rw [Evaluator.step_cons]
    cases ha : t.action? with
    | none => rfl
    | some a =>
      refine Evaluator.eval_effect (keep i ?_ _ (h.1.2.action ha))
      simp [Execution.next, ha]

/-- What the points passed have computed, with no change since, is known. -/
theorem knows_of_computesAlong (built : build s = .ok g) (tracked : e ∈ g.occurrences scope)
    (σ : Variable → V) (k : Nat) (computed : g.ComputesAlong scope (m.passed s σ k) e) :
    m.Knows s σ scope k e := by
  induction k with
  | zero => exact absurd computed not_computesAlong_nil
  | succ k ih =>
    have placed := placed_run built m σ k
    rw [Evaluator.passed] at computed
    obtain hn | ⟨n, hn⟩ := (m.run s σ k).next_cases
    · rw [hn, List.append_nil] at computed
      exact (ih computed).succ (placed.eval_step (by simp [hn]))
    · rw [hn, computesAlong_concat tracked] at computed
      obtain ⟨node, at_n, computes⟩ | ⟨before, keep⟩ := computed
      · obtain ⟨c, evaluates, covers⟩ := computes.covers
        have kept : m.eval e (m.run s σ (k + 1)).store = m.eval e (m.run s σ k).store := by
          refine placed.eval_step fun j hj other at_j => ?_
          rw [hn, List.mem_singleton] at hj
          obtain rfl := Option.some.inj (at_n.symm.trans (hj ▸ at_j))
          exact computes.not_changes
        exact ⟨k, Nat.lt_succ_self k, c, (placed.evaluates?_eq hn at_n).trans evaluates, covers,
          kept.symm⟩
      · exact (ih before).succ (placed.eval_step (by simpa [hn] using keep))

/-- The report on a program lists on entry to a node the expressions that every walk to it computes
without a change since. -/
theorem exists_entry_iff_available (built : build s = .ok g) (scope : Scope)
    (strategy : Strategy) :
    ∃ r, s.analyze { kind := .availableExprs, strategy, scope } = .ok r ∧
      ∀ n node, g.node? n = some node → ∃ entry : List Expr,
        r.entry? node.label = some (entry.map .expr) ∧ ∀ e, e ∈ entry ↔
          e ∈ g.occurrences scope ∧
            ∀ ns, Walk g.Step g.entry ns n → g.ComputesAlong scope ns e := by
  obtain ⟨r, v, analyzed, walks, lists⟩ :=
    Statement.analyze_overWalks built ⟨.availableExprs, strategy, scope⟩ (g.availableExprs scope)
      .expr rfl
  refine ⟨r, analyzed, fun n node h => ?_⟩
  obtain ⟨hn, entry, -⟩ := lists n node h
  exact ⟨_, entry, fun e => (Analysis.mem_holding_before walks hn).trans (forall_carries_iff id)⟩

/-- When an execution of a program comes to a point, it has evaluated each expression that is
available there at a test or an assignment before, and the expression still has the value that it
had then. -/
theorem runs_know_available (built : build s = .ok g) (scope : Scope) (strategy : Strategy) :
    ∃ r, s.analyze { kind := .availableExprs, strategy, scope } = .ok r ∧
      ∀ {V : Type u} (m : Evaluator V) (σ : Variable → V) (k : Nat) (l : Label),
        (m.run s σ k).label? = some l →
          ∃ facts, r.entry? l = some facts ∧
            ∀ e, Fact.expr e ∈ facts → m.Knows s σ scope k e := by
  obtain ⟨r, analyzed, lists⟩ := exists_entry_iff_available built scope strategy
  refine ⟨r, analyzed, fun m σ k l next => ?_⟩
  obtain ⟨node, at_point, rfl⟩ := node?_of_label? built (placed_run built m σ k) next
  obtain ⟨entry, listed, mem⟩ := lists _ node at_point
  refine ⟨_, listed, fun e he => ?_⟩
  obtain ⟨tracked, everywhere⟩ := (mem e).1 (by simpa using he)
  refine knows_of_computesAlong built tracked σ k (everywhere _ ?_)
  have entry_zero : g.entry = 0 := by
    obtain ⟨-, rfl⟩ := build_eq_ok.1 built
    rfl
  exact entry_zero ▸ walk_passed built m σ k

/-- Inside the loop its test has been evaluated. -/
theorem runs_know_available_countdown :
    build .countdown = .ok (ofStatement .countdown) ∧
      (Evaluator.int.run .countdown (fun _ => 3) 2).label? = some (.stmt 2) ∧
      Evaluator.int.Knows .countdown (fun _ => 3) .nested 2
        (.binary .gt (.var "x") (.const 0)) := by
  obtain ⟨r, analyzed, knows⟩ := runs_know_available build_countdown .nested .jacobi
  obtain ⟨r', analyzed', lists⟩ := exists_entry_iff_available build_countdown .nested .jacobi
  obtain rfl : r = r' := Except.ok.inj (analyzed.symm.trans analyzed')
  have next : (Evaluator.int.run .countdown (fun _ => 3) 2).label? = some (.stmt 2) := by rfl
  obtain ⟨facts, listed, known⟩ := knows Evaluator.int (fun _ => 3) 2 (.stmt 2) next
  obtain ⟨entry, listed', mem⟩ := lists 1 _ rfl
  obtain rfl := Option.some.inj (listed.symm.trans listed')
  let test : Expr := .binary .gt (.var "x") (.const 0)
  have tracked : test ∈ (ofStatement .countdown).occurrences .nested := by decide
  have candidate : test ∈ Scope.nested.candidates test := by decide
  have enters : ∀ m < 3, (ofStatement .countdown).Step m 1 → m = 0 := by decide
  refine ⟨build_countdown, next, known _ (List.mem_map_of_mem ((mem _).2 ⟨tracked, ?_⟩))⟩
  intro ns walk
  cases walk with
  | step walk step =>
    obtain rfl := enters _ (lt_of_step_ofStatement step) step
    exact (computesAlong_concat tracked).2 (Or.inl ⟨_, rfl, candidate⟩)

end FlowGraph
end FlowAnalysis
