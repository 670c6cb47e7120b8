/-!
Labels of program points: numbers for statements, and one label for the exit, which comes last.
-/
namespace FlowAnalysis

inductive Label
  | stmt (number : Nat)
  | exit
  deriving DecidableEq, Ord

namespace Label

def text : Label → String
  | stmt n => toString n
  | exit => "exit"

def number? : Label → Option Nat
  | stmt n => some n
  | exit => none

def isExit : Label → Bool
  | stmt _ => false
  | exit => true

/-- Numbers ascend; the exit is above all of them. -/
def before : Label → Label → Bool
  | stmt n, stmt m => n < m
  | stmt _, exit => true
  | exit, _ => false

instance : LT Label := ⟨fun a b => a.before b = true⟩

instance (a b : Label) : Decidable (a < b) := inferInstanceAs (Decidable (a.before b = true))

@[simp] theorem stmt_lt_stmt {n m : Nat} : stmt n < stmt m ↔ n < m := decide_eq_true_iff

@[simp] theorem stmt_lt_exit (n : Nat) : stmt n < exit := rfl

@[simp] theorem not_exit_lt (l : Label) : ¬ exit < l := Bool.false_ne_true

end Label
end FlowAnalysis
