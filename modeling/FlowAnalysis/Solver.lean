import FlowAnalysis.GenKill.Pass
import FlowAnalysis.Results

/-!
Solvers repeat passes over the participating nodes of a graph until one of them changes nothing.
-/
namespace FlowAnalysis

/-- The kind of passes. -/
inductive Strategy
  | gaussSeidel | jacobi
  deriving DecidableEq

namespace Strategy

def all : List Strategy := [gaussSeidel, jacobi]

def text : Strategy → String
  | gaussSeidel => "gauss-seidel"
  | jacobi => "jacobi"

/-- The strategy written `s`. -/
def ofText? (s : String) : Option Strategy := all.find? (·.text == s)

end Strategy

structure Solver where
  flow : FlowGraph
  problem : GenKill
  /-- The nodes that a pass evaluates. -/
  order : List Nat
  cells : Array Cell
  strategy : Strategy := .gaussSeidel
  passes : Nat := 0

namespace Solver

/-- Every node assumes the initial value; before the boundary node stands the boundary value. -/
def initialCells (flow : FlowGraph) (p : GenKill) : Array Cell :=
  let initial := BitSet.ofBits p.initial
  (Array.replicate flow.nodeCount ⟨initial, initial⟩).modify (flow.boundaryNode p.direction)
    fun c => { c with before := .ofBits p.boundary }

def new (flow : FlowGraph) (problem : GenKill) : Solver where
  flow := flow
  problem := problem
  order := flow.visitOrder problem.direction
  cells := initialCells flow problem

def withStrategy (s : Solver) (strategy : Strategy) : Solver := { s with strategy := strategy }

/-- The states on entry to the nodes. -/
def entryStates (s : Solver) : Array BitSet :=
  match s.problem.direction with
  | .forward => s.cells.map (·.before)
  | .backward => s.cells.map (·.after)

/-- The states on exit from the nodes. -/
def exitStates (s : Solver) : Array BitSet :=
  match s.problem.direction with
  | .forward => s.cells.map (·.after)
  | .backward => s.cells.map (·.before)

/-- One warning for each idle node. -/
def warnings (s : Solver) : List Warning :=
  (s.flow.idleNodes s.problem.direction).filterMap fun n => .unreachable <$> s.flow.label? n

/-- The cells of earlier results. -/
def cellsOf (d : Direction) (r : Results BitSet) : Array Cell :=
  match d with
  | .forward => Array.zipWith Cell.mk r.entryStates r.exitStates
  | .backward => Array.zipWith Cell.mk r.exitStates r.entryStates

/-- A solver that goes on from earlier results. Results for another number of nodes are ignored. -/
def resume (flow : FlowGraph) (problem : GenKill) (r : Results BitSet) : Solver :=
  let s := new flow problem
  if r.nodeCount = flow.nodeCount then { s with cells := cellsOf problem.direction r } else s

/-- Evaluate every participating node once; the flag says whether any state changed. -/
def pass (s : Solver) : Except Fault (Solver × Bool) := do
  let (cells, changed) ← match s.strategy with
    | .gaussSeidel => s.problem.gaussSeidelPass s.flow s.order s.cells
    | .jacobi => s.problem.jacobiPass s.flow s.order s.cells
  return ({ s with cells := cells, passes := s.passes + 1 }, changed)

def results (s : Solver) : Results BitSet where
  entryStates := s.entryStates
  exitStates := s.exitStates
  labels := s.flow.labels.toArray
  passes := s.passes
  warnings := s.warnings

/-- At most `fuel` passes, up to the first that changes nothing. -/
def runFor (s : Solver) (fuel : Nat) : Except Fault Solver :=
  match fuel with
  | 0 => .error .unsettled
  | fuel + 1 => do
    let (s, changed) ← s.pass
    if changed then s.runFor fuel else return s

/-- A bound on the passes of any run that settles. Each bit moves on its own, and what one bit does
at `p` nodes under passes of one kind comes to repeat itself within `p * p` of them. -/
def limit (s : Solver) : Nat :=
  s.order.length * s.problem.size + (s.order.length + 2) * (s.order.length + 2)

/-- Repeat passes until one changes nothing. -/
def solve (s : Solver) : Except Fault (Results BitSet) := results <$> s.runFor s.limit

end Solver
end FlowAnalysis
