/-!
Faults are misuses of an operation by its caller, and runs that never settle.
-/
namespace FlowAnalysis

inductive Fault
  /-- An element beyond the universe of the set. -/
  | outOfUniverse (index size : Nat)
  /-- Two sets of different universes met. -/
  | universeMismatch
  /-- There is no such node. -/
  | noNode (node : Nat)
  /-- A run repeats itself without coming to rest. -/
  | unsettled
  deriving DecidableEq

/-- Faults of sets have a text of their own. -/
def Fault.message? : Fault → Option String
  | outOfUniverse i n => some ("index " ++ toString i ++ " out of bounds for " ++ toString n)
  | universeMismatch => some "bit sets must have same length"
  | noNode _ => none
  | unsettled => none

end FlowAnalysis
