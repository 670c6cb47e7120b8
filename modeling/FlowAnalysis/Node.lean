import FlowAnalysis.Expr
import FlowAnalysis.Label

/-!
The nodes and edges of control flow graphs: what a node does or tests under its label, and under
which condition an edge is taken.
-/
namespace FlowAnalysis

/-- What happens at a node. -/
inductive Action
  | skip
  | assign (target : Variable) (value : Expr)
  | test (condition : Expr)
  | exit
  deriving DecidableEq

structure Node where
  label : Label
  action : Action
  deriving DecidableEq

namespace Node

def assigned? (n : Node) : Option Variable :=
  match n.action with
  | .assign x _ => some x
  | _ => none

/-- What the node evaluates. -/
def expr? (n : Node) : Option Expr :=
  match n.action with
  | .assign _ e => some e
  | .test c => some c
  | _ => none

def isTest (n : Node) : Bool :=
  match n.action with
  | .test _ => true
  | _ => false

/-- The label and the action; the exit shows its label alone. -/
def text (n : Node) : String :=
  match n.action with
  | .skip => n.label.text ++ ": skip"
  | .assign x e => n.label.text ++ ": " ++ x ++ " := " ++ e.text
  | .test c => n.label.text ++ ": [" ++ c.text ++ "]"
  | .exit => n.label.text

end Node

inductive EdgeKind
  | sequential | whenTrue | whenFalse | back
  deriving DecidableEq

namespace EdgeKind

def all : List EdgeKind := [sequential, whenTrue, whenFalse, back]

def text : EdgeKind → String
  | sequential => "sequential"
  | whenTrue => "conditional_true"
  | whenFalse => "conditional_false"
  | back => "back_edge"

def isConditional : EdgeKind → Bool
  | whenTrue | whenFalse => true
  | sequential | back => false

def isBack (k : EdgeKind) : Bool := k == back

end EdgeKind

end FlowAnalysis
