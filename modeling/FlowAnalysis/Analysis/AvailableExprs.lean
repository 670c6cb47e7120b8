import FlowAnalysis.Analysis

/-!
Available expressions: those that have been evaluated along every path to a point, with no variable
of theirs assigned since. A test or an assignment evaluates its expression before it assigns.
-/
namespace FlowAnalysis

/-- Which parts of an evaluated expression are tracked. -/
inductive Scope
  /-- The expression as a whole. -/
  | topLevel
  /-- Every binary subexpression. -/
  | nested
  deriving DecidableEq

namespace Scope

def all : List Scope := [topLevel, nested]

def text : Scope → String
  | topLevel => "top-level"
  | nested => "nested"

/-- The scope written `s`. -/
def ofText? (s : String) : Option Scope := all.find? (·.text == s)

/-- The tracked parts of `e`. Variables and constants are not tracked. -/
def candidates : Scope → Expr → List Expr
  | topLevel, e => if e.isBinary then [e] else []
  | nested, e => e.binarySubexprs

end Scope

/-- The tracked expressions that the node evaluates. -/
def Node.candidates (scope : Scope) (n : Node) : List Expr :=
  (n.expr?.map scope.candidates).getD []

/-- What a node evaluates is available after it, unless the node changes a variable of it. -/
def Node.makesAvailable (scope : Scope) (n : Node) : List Expr :=
  match n.assigned? with
  | some x => (n.candidates scope).filter (!·.mentions x)
  | none => n.candidates scope

/-- An assignment ends the availability of every expression with its variable. -/
def Node.makesUnavailable (facts : List Expr) (n : Node) : List Expr :=
  match n.assigned? with
  | some x => facts.filter (·.mentions x)
  | none => []

namespace FlowGraph

/-- The tracked expressions of a graph, by first occurrence. -/
def trackedExprs (scope : Scope) (g : FlowGraph) : List Expr :=
  (g.nodes.flatMap (Node.candidates scope)).eraseDups

def availableExprs (scope : Scope) (g : FlowGraph) : Analysis Expr :=
  let facts := g.trackedExprs scope
  { direction := .forward
    confluence := .intersection
    facts := facts
    gen := g.nodes.map (Node.makesAvailable scope)
    kill := g.nodes.map (Node.makesUnavailable facts) }

end FlowGraph
end FlowAnalysis
