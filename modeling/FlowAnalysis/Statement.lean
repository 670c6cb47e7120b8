import FlowAnalysis.Expr

/-!
Statements of a structured imperative language. A sequence groups statements and has no point of
its own in the program; every other statement is a point where something is evaluated or done.
-/
namespace FlowAnalysis

inductive Statement
  | skip
  | assign (target : Variable) (value : Expr)
  | seq (body : List Statement)
  | loop (condition : Expr) (body : Statement)
  | branch (condition : Expr) (whenTrue whenFalse : Statement)

namespace Statement

mutual

/-- The number of statements that are no sequences. -/
def size : Statement → Nat
  | skip => 1
  | assign _ _ => 1
  | seq body => sizeAll body
  | loop _ body => body.size + 1
  | branch _ t f => t.size + f.size + 1

def sizeAll : List Statement → Nat
  | [] => 0
  | s :: rest => s.size + sizeAll rest

end

mutual

/-- Every occurrence of an assigned variable, in program order. -/
def targets : Statement → List Variable
  | skip => []
  | assign x _ => [x]
  | seq body => targetsAll body
  | loop _ body => body.targets
  | branch _ t f => t.targets ++ f.targets

def targetsAll : List Statement → List Variable
  | [] => []
  | s :: rest => s.targets ++ targetsAll rest

end

/-- The variables assigned anywhere, ascending. -/
def assigned (s : Statement) : List Variable := Variable.ascending s.targets

end Statement
end FlowAnalysis
