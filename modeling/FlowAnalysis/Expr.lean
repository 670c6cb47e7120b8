import FlowAnalysis.Operator
import FlowAnalysis.Variable

/-!
Expressions over variables and integer constants, and their printed form: infix, with the fewest
parentheses that precedence and association to the left allow.
-/
namespace FlowAnalysis

inductive Expr
  | var (name : Variable)
  | const (value : Int)
  | binary (op : BinaryOp) (left right : Expr)
  deriving DecidableEq, Ord

/-- Every occurrence of a variable, left to right. -/
def Expr.reads : Expr → List Variable
  | var x => [x]
  | const _ => []
  | binary _ l r => l.reads ++ r.reads

/-- The variables read, ascending. -/
def Expr.variables (e : Expr) : List Variable := Variable.ascending e.reads

namespace Expr

def isBinary : Expr → Bool
  | binary .. => true
  | _ => false

def mentions (e : Expr) (x : Variable) : Bool :=
  match e with
  | var y => y == x
  | const _ => false
  | binary _ l r => l.mentions x || r.mentions x

/-- Every binary subexpression after its own parts, as often as it occurs. -/
def binarySubexprs : Expr → List Expr
  | binary op l r => l.binarySubexprs ++ r.binarySubexprs ++ [binary op l r]
  | _ => []

/-- No variable has a blank name. -/
def wellNamed (e : Expr) : Bool := e.reads.all Variable.wellNamed

/-- The text of an operand that needs parentheses below precedence `context`. The right operand of
an operator stands one level higher than the left one. -/
def textAt (context : Nat) : Expr → String
  | var x => x
  | const n => toString n
  | binary op l r =>
    let body := l.textAt op.precedence ++ " " ++ op.symbol ++ " " ++ r.textAt (op.precedence + 1)
    if op.precedence < context then "(" ++ body ++ ")" else body

def text (e : Expr) : String := e.textAt 0

@[simp] theorem mem_variables {x : Variable} {e : Expr} : x ∈ e.variables ↔ x ∈ e.reads := by
  simp [Expr.variables]

theorem mentions_iff {e : Expr} {x : Variable} : e.mentions x = true ↔ x ∈ e.variables := by
  rw [mem_variables]
  induction e with
  | var y => simp [mentions, reads, @eq_comm _ x y]
  | const n => simp [mentions, reads]
  | binary op l r hl hr => simp [mentions, reads, hl, hr]

theorem isBinary_of_mem_binarySubexprs {e s : Expr} (h : s ∈ e.binarySubexprs) :
    s.isBinary = true := by
  induction e with
  | var y => simp [binarySubexprs] at h
  | const n => simp [binarySubexprs] at h
  | binary op l r hl hr =>
    simp only [binarySubexprs, List.mem_append, List.mem_singleton] at h
    rcases h with (h | h) | rfl
    · exact hl h
    · exact hr h
    · rfl

end Expr
end FlowAnalysis
