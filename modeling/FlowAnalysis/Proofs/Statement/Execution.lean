import FlowAnalysis.Node
import FlowAnalysis.Statement
import Mathlib.Logic.Function.Basic

/-!
Executions of statements, whatever the values and whatever expressions mean. What is still to be
executed is a list of statements, each with the node of its first point; control passes a point at
each step, or enters a sequence, which has no point of its own. Main statement: a step splits into
where control goes and what becomes of the store.
-/
namespace FlowAnalysis

universe u

/-- A meaning of expressions: their values, which depend on the variables that they read alone, and
the values that count as true. -/
structure Evaluator (V : Type u) where
  eval : Expr → (Variable → V) → V
  truth : V → Bool
  eval_congr : ∀ e σ τ, (∀ x ∈ e.reads, σ x = τ x) → eval e σ = eval e τ

/-- What is still to be executed, and the values of the variables. -/
structure Execution (V : Type u) where
  pending : List (Nat × Statement)
  store : Variable → V

namespace Statement

/-- The members of a sequence that starts at node `i`, each with its first node. -/
def members (i : Nat) : List Statement → List (Nat × Statement)
  | [] => []
  | s :: rest => (i, s) :: members (i + s.size) rest

/-- What a statement does at its first point. A sequence has no point of its own. -/
def action? : Statement → Option Action
  | skip => some .skip
  | assign x e => some (.assign x e)
  | seq _ => none
  | loop c _ => some (.test c)
  | branch c _ _ => some (.test c)

/-- What comes before `rest` once the first point of a statement at node `i` is passed, where its
test, if it has one, turns out as `b`. -/
def proceed (b : Bool) (i : Nat) (rest : List (Nat × Statement)) :
    Statement → List (Nat × Statement)
  | skip => rest
  | assign _ _ => rest
  | seq body => members i body ++ rest
  | loop c body => if b then (i + 1, body) :: (i, loop c body) :: rest else rest
  | branch _ t f => (if b then (i + 1, t) else (i + 1 + t.size, f)) :: rest

end Statement

variable {V : Type u}

/-- The label of the point that comes next; none where a sequence is entered. -/
def Execution.label? (x : Execution V) : Option Label :=
  match x.pending with
  | [] => some .exit
  | (_, .seq _) :: _ => none
  | (i, _) :: _ => some (.stmt (i + 1))

def Execution.Finished (x : Execution V) : Prop := x.pending = []

/-- The node of the point that comes next, if there is one. -/
def Execution.next (x : Execution V) : List Nat :=
  match x.pending with
  | [] => []
  | (i, s) :: _ => if s.action?.isSome then [i] else []

namespace Evaluator

/-- One step. Nothing changes when all is done. -/
def step (m : Evaluator V) (x : Execution V) : Execution V :=
  match x.pending with
  | [] => x
  | (_, .skip) :: rest => ⟨rest, x.store⟩
  | (_, .assign v e) :: rest => ⟨rest, Function.update x.store v (m.eval e x.store)⟩
  | (i, .seq body) :: rest => ⟨Statement.members i body ++ rest, x.store⟩
  | (i, .loop c body) :: rest =>
    if m.truth (m.eval c x.store) then ⟨(i + 1, body) :: (i, .loop c body) :: rest, x.store⟩
    else ⟨rest, x.store⟩
  | (i, .branch c t f) :: rest =>
    if m.truth (m.eval c x.store) then ⟨(i + 1, t) :: rest, x.store⟩
    else ⟨(i + 1 + t.size, f) :: rest, x.store⟩

/-- The execution of `s` from the store `σ`, after so many steps. -/
def run (m : Evaluator V) (s : Statement) (σ : Variable → V) : Nat → Execution V
  | 0 => ⟨[(0, s)], σ⟩
  | k + 1 => m.step (m.run s σ k)

/-- The nodes of the points that are passed in so many steps. -/
def passed (m : Evaluator V) (s : Statement) (σ : Variable → V) : Nat → List Nat
  | 0 => []
  | k + 1 => m.passed s σ k ++ (m.run s σ k).next

/-- How a test turns out. -/
def outcome (m : Evaluator V) (σ : Variable → V) : Option Action → Bool
  | some (.test c) => m.truth (m.eval c σ)
  | _ => true

/-- What an action makes of the store. -/
def effect (m : Evaluator V) (σ : Variable → V) : Option Action → Variable → V
  | some (.assign v e) => Function.update σ v (m.eval e σ)
  | _ => σ

variable (m : Evaluator V) (σ : Variable → V) (i : Nat) (s : Statement)
  (rest : List (Nat × Statement))

/-- The store decides where control goes only by the outcome of a test. -/
theorem step_cons : m.step ⟨(i, s) :: rest, σ⟩ =
    ⟨s.proceed (m.outcome σ s.action?) i rest, m.effect σ s.action?⟩ := by
  cases s with
  | skip => rfl
  | assign v e => rfl
  | seq body => rfl
  | loop c body =>
    cases test : m.truth (m.eval c σ) <;>
      simp [step, Statement.proceed, Statement.action?, outcome, effect, test]
  | branch c t f =>
    cases test : m.truth (m.eval c σ) <;>
      simp [step, Statement.proceed, Statement.action?, outcome, effect, test]

end Evaluator

/-- Operators on integers; what is true is one and what is not is zero. -/
def BinaryOp.onInt : BinaryOp → Int → Int → Int
  | add, a, b => a + b
  | sub, a, b => a - b
  | mul, a, b => a * b
  | div, a, b => a.tdiv b
  | rem, a, b => a.tmod b
  | lt, a, b => if a < b then 1 else 0
  | le, a, b => if a ≤ b then 1 else 0
  | gt, a, b => if b < a then 1 else 0
  | ge, a, b => if b ≤ a then 1 else 0
  | eq, a, b => if a = b then 1 else 0
  | ne, a, b => if a = b then 0 else 1
  | and, a, b => if a = 0 ∨ b = 0 then 0 else 1
  | or, a, b => if a = 0 ∧ b = 0 then 0 else 1

def Expr.onInt (σ : Variable → Int) : Expr → Int
  | var x => σ x
  | const n => n
  | binary op l r => op.onInt (l.onInt σ) (r.onInt σ)

/-- Integer arithmetic. -/
def Evaluator.int : Evaluator Int where
  eval := fun e σ => e.onInt σ
  truth := (· != 0)
  eval_congr := by
    intro e σ τ same
    induction e with
    | var x => exact same x List.mem_cons_self
    | const n => rfl
    | binary op l r hl hr =>
      simp only [Expr.reads, List.forall_mem_append] at same
      rw [Expr.onInt, Expr.onInt, hl same.1, hr same.2]

end FlowAnalysis
