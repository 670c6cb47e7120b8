import FlowAnalysis.Label

/-!
The outcome of an analysis: a state on entry to each node and one on exit from it, found by the
node's number or by its label.
-/
namespace FlowAnalysis

inductive Warning
  /-- The node takes no part in the analysis. -/
  | unreachable (label : Label)
  deriving DecidableEq

def Warning.text : Warning → String
  | unreachable l => "node " ++ l.text ++ " is unreachable, its state was never updated"

structure Results (σ : Type) where
  entryStates : Array σ
  exitStates : Array σ
  labels : Array Label
  passes : Nat
  warnings : List Warning

namespace Results

variable {σ : Type}

def nodeCount (r : Results σ) : Nat := r.entryStates.size

/-- The place of a label: its own, counted from one, if it stands there, or else its first. There
is no place for zero. -/
def position? (r : Results σ) (l : Label) : Option Nat :=
  match l with
  | .stmt 0 => none
  | .stmt (n + 1) =>
    if r.labels[n]? = some l then some n else r.labels.toList.findIdx? (· == l)
  | .exit => r.labels.toList.findIdx? (· == l)

/-- The state on entry to the node that `l` names. -/
def entry? (r : Results σ) (l : Label) : Option σ := do r.entryStates[← r.position? l]?

/-- The state on exit from the node that `l` names. -/
def exit? (r : Results σ) (l : Label) : Option σ := do r.exitStates[← r.position? l]?

end Results
end FlowAnalysis
