import FlowAnalysis.Statement

/-!
A linear order on statements: by form (skip, assignment, sequence, loop, branch), then by parts
from left to right; sequences as words, a shorter one before its extensions.
-/
namespace FlowAnalysis.Statement

/-- The rank of a statement's form. -/
def rank : Statement → Nat
  | skip => 0
  | assign .. => 1
  | seq _ => 2
  | loop .. => 3
  | branch .. => 4

mutual

def order : Statement → Statement → Ordering
  | assign x e, assign y f => (compare x y).then (compare e f)
  | seq ss, seq ts => orderAll ss ts
  | loop c b, loop d b' => (compare c d).then (order b b')
  | branch c t f, branch d t' f' => (compare c d).then ((order t t').then (order f f'))
  | s, t => compare s.rank t.rank

def orderAll : List Statement → List Statement → Ordering
  | [], [] => .eq
  | [], _ :: _ => .lt
  | _ :: _, [] => .gt
  | s :: ss, t :: ts => (order s t).then (orderAll ss ts)

end

instance : Ord Statement := ⟨order⟩

end FlowAnalysis.Statement
