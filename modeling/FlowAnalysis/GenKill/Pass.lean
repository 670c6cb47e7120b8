import FlowAnalysis.GenKill

/-!
One pass over a graph: every node of an order is evaluated once, from what flows into it. In a
Gauss-Seidel pass an evaluation sees all earlier ones; in a Jacobi pass all see the states before
the pass.
-/
namespace FlowAnalysis

/-- The states of a node, before and after its transfer in the direction of flow. -/
structure Cell where
  before : BitSet
  after : BitSet
  deriving DecidableEq, Inhabited

namespace Cell

/-- The states of node `n`. -/
def read (cells : Array Cell) (n : Nat) : Cell := cells.getD n default

/-- Put new states at node `n`, and note whether they differ from the old ones. -/
def record (acc : Array Cell × Bool) (n : Nat) (c : Cell) : Array Cell × Bool :=
  (acc.1.setIfInBounds n c, acc.2 || read acc.1 n != c)

end Cell

namespace GenKill

variable (p : GenKill) (g : FlowGraph)

/-- The states after the sources of `n`. A state of another universe is a fault. -/
def sourceStates (cells : Array Cell) (n : Nat) : Except Fault (List (BitVec p.size)) :=
  (g.sources p.direction n).mapM fun m => (Cell.read cells m).after.within p.size

/-- Everything that flows into `n`: the boundary value first, if `n` is the boundary node. -/
def inflow (n : Nat) (states : List (BitVec p.size)) : List (BitVec p.size) :=
  if n = g.boundaryNode p.direction then p.boundary :: states else states

/-- New states of node `n`: the meet of all that flows in, or the state that was there if nothing
does, and its transfer. -/
def evaluate (cells : Array Cell) (n : Nat) : Except Fault Cell := do
  let before ← match p.inflow g n (← p.sourceStates g cells n) with
    | [] => (Cell.read cells n).before.within p.size
    | x :: xs => pure (p.meetAll x xs)
  return ⟨.ofBits before, .ofBits (p.transfer n before)⟩

/-- Each evaluation sees those before it. The flag says whether any state changed. -/
def gaussSeidelPass (order : List Nat) (cells : Array Cell) : Except Fault (Array Cell × Bool) :=
  order.foldlM (fun acc n => do return Cell.record acc n (← p.evaluate g acc.1 n)) (cells, false)

/-- All evaluations see the same states. The flag says whether any state changed. -/
def jacobiPass (order : List Nat) (cells : Array Cell) : Except Fault (Array Cell × Bool) := do
  let updates ← order.mapM fun n => do return (n, ← p.evaluate g cells n)
  return updates.foldl (fun acc (n, c) => Cell.record acc n c) (cells, false)

end GenKill
end FlowAnalysis
