import FlowAnalysis.Solver

/-!
Analyses whose states are of any kind, and the iteration that solves them. States, sources and
flags are in arrays by node: what is read beyond them is a fault.
-/
namespace FlowAnalysis

/-- The direction in which states flow, the states where they start to flow and those that every
node assumes at first, how states meet, and what a node makes of one. -/
structure Framework (σ : Type) where
  direction : Direction
  boundary : FlowGraph → σ
  initial : FlowGraph → σ
  meet : σ → σ → Except Fault σ
  transfer : FlowGraph → Nat → Node → σ → Except Fault σ

/-- What has flowed into a node so far, and one more state. -/
def Framework.flowIn {σ : Type} (f : Framework σ) (input : Option σ) (state : σ) :
    Except Fault (Option σ) :=
  match input with
  | none => .ok (some state)
  | some x => some <$> f.meet x state

/-- The nodes to visit, and for each node of the graph whether it is among them. -/
structure Listing where
  flags : Array Bool
  nodes : List (Nat × Node)

/-- List a node that is present, unless it is listed. -/
def Listing.visit (g : FlowGraph) (present : BitSet) (l : Listing) (n : Nat) : Listing :=
  if n ∈ present ∧ l.flags[n]? = some false then
    ⟨l.flags.setIfInBounds n true, l.nodes ++ (g.node? n).toList.map (n, ·)⟩
  else l

/-- The participants in the order of the walk, then those that the walk misses. -/
def FlowGraph.listing (g : FlowGraph) (d : Direction) : Listing :=
  (g.walk d ++ g.nodeIds).foldl (Listing.visit g (g.participants d))
    ⟨Array.replicate g.nodeCount false, []⟩

structure Iteration (σ : Type) where
  framework : Framework σ
  flow : FlowGraph
  strategy : Strategy := .gaussSeidel
  /-- The nodes that a pass evaluates. -/
  order : List (Nat × Node)
  /-- The nodes whose states flow into each node. -/
  sources : Array (List Nat)
  boundary : σ
  /-- The states that nodes transfer. -/
  before : Array σ
  /-- The states that nodes make of them. -/
  after : Array σ
  passes : Nat := 0
  warnings : List Warning

namespace Iteration

variable {σ α : Type}

def new (f : Framework σ) (g : FlowGraph) : Iteration σ where
  framework := f
  flow := g
  order := (g.listing f.direction).nodes
  sources := (g.nodeIds.map (g.sources f.direction)).toArray
  boundary := f.boundary g
  before := (Array.replicate g.nodeCount (f.initial g)).setIfInBounds
    (g.boundaryNode f.direction) (f.boundary g)
  after := Array.replicate g.nodeCount (f.initial g)
  warnings := (g.idleNodes f.direction).filterMap fun n => .unreachable <$> g.label? n

/-- An iteration that goes on from earlier results. Results for another number of nodes are
ignored. -/
def resume (f : Framework σ) (g : FlowGraph) (r : Results σ) : Iteration σ :=
  let s := new f g
  if r.nodeCount = g.nodeCount then
    match f.direction with
    | .forward => { s with before := r.entryStates, after := r.exitStates }
    | .backward => { s with before := r.exitStates, after := r.entryStates }
  else s

def withStrategy (s : Iteration σ) (strategy : Strategy) : Iteration σ :=
  { s with strategy := strategy }

def results (s : Iteration σ) : Results σ where
  entryStates := match s.framework.direction with
    | .forward => s.before
    | .backward => s.after
  exitStates := match s.framework.direction with
    | .forward => s.after
    | .backward => s.before
  labels := s.flow.labels.toArray
  passes := s.passes
  warnings := s.warnings

/-- The entry of node `n` in a table. -/
def read (xs : Array α) (n : Nat) : Except Fault α :=
  match xs[n]? with
  | some x => .ok x
  | none => .error (.noNode n)

/-- What flows into `n` meets from left to right, the boundary value first if `n` is the boundary
node. -/
def gather (s : Iteration σ) (n : Nat) : Except Fault (Option σ) := do
  let start := if n = s.flow.boundaryNode s.framework.direction then some s.boundary else none
  (← read s.sources n).foldlM (fun input m => do s.framework.flowIn input (← read s.after m)) start

/-- New states of a node: what flows in, or the state that was there if nothing does, and its
transfer. -/
def evaluate (s : Iteration σ) (n : Nat) (node : Node) : Except Fault (σ × σ) := do
  let input ← match ← s.gather n with
    | some x => pure x
    | none => read s.before n
  return (input, ← s.framework.transfer s.flow n node input)

variable [DecidableEq σ]

/-- Put new states at node `n`; the flag says whether they differ from the old ones. -/
def store (s : Iteration σ) (n : Nat) (x y : σ) : Except Fault (Iteration σ × Bool) := do
  let changed := (← read s.before n) != x || (← read s.after n) != y
  return ({ s with before := s.before.setIfInBounds n x, after := s.after.setIfInBounds n y },
    changed)

/-- Steps one after the other; the flag says whether any of them had its flag set. -/
def forEach (step : Iteration σ → α → Except Fault (Iteration σ × Bool)) (as : List α)
    (s : Iteration σ) : Except Fault (Iteration σ × Bool) :=
  as.foldlM (fun (s, changed) a => do
    let (s, now) ← step s a
    return (s, changed || now)) (s, false)

/-- Evaluate a listed node and put its new states there. -/
def visit (s : Iteration σ) (e : Nat × Node) : Except Fault (Iteration σ × Bool) := do
  let (x, y) ← s.evaluate e.1 e.2
  s.store e.1 x y

/-- Each evaluation sees those before it. -/
def gaussSeidelPass (s : Iteration σ) : Except Fault (Iteration σ × Bool) :=
  forEach visit s.order s

/-- All evaluations see the same states. -/
def jacobiPass (s : Iteration σ) : Except Fault (Iteration σ × Bool) := do
  let updates ← s.order.mapM fun e => do return (e.1, ← s.evaluate e.1 e.2)
  forEach (fun s u => s.store u.1 u.2.1 u.2.2) updates s

/-- Evaluate every listed node once, as the strategy says. -/
def sweep (s : Iteration σ) : Except Fault (Iteration σ × Bool) :=
  match s.strategy with
  | .gaussSeidel => s.gaussSeidelPass
  | .jacobi => s.jacobiPass

/-- A sweep that counts; the flag says whether any state changed. -/
def pass (s : Iteration σ) : Except Fault (Iteration σ × Bool) := do
  let (s, changed) ← s.sweep
  return ({ s with passes := s.passes + 1 }, changed)

end Iteration
end FlowAnalysis
