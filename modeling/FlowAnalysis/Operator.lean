/-!
The binary operators: arithmetic, comparison and logic, with the precedence that their printed
form follows.
-/
namespace FlowAnalysis

inductive BinaryOp
  | add | sub | mul | div | rem
  | lt | le | gt | ge | eq | ne
  | and | or
  deriving DecidableEq, Ord

namespace BinaryOp

/-- Every operator, in declaration order. -/
def all : List BinaryOp := [add, sub, mul, div, rem, lt, le, gt, ge, eq, ne, and, or]

def symbol : BinaryOp → String
  | add => "+"
  | sub => "-"
  | mul => "*"
  | div => "/"
  | rem => "%"
  | lt => "<"
  | le => "<="
  | gt => ">"
  | ge => ">="
  | eq => "=="
  | ne => "!="
  | and => "&&"
  | or => "||"

/-- The operator written `s`. -/
def ofSymbol? (s : String) : Option BinaryOp := all.find? (·.symbol == s)

/-- Comparisons and connectives yield truth values; arithmetic does not. -/
def isRelational : BinaryOp → Bool
  | add | sub | mul | div | rem => false
  | _ => true

/-- Higher binds tighter. -/
def precedence : BinaryOp → Nat
  | or => 1
  | and => 2
  | eq | ne => 3
  | lt | le | gt | ge => 4
  | add | sub => 5
  | mul | div | rem => 6

@[simp] theorem ofSymbol?_symbol (op : BinaryOp) : ofSymbol? op.symbol = some op := by
  cases op <;> rfl

theorem symbol_of_ofSymbol? {s : String} {op : BinaryOp} (h : ofSymbol? s = some op) :
    op.symbol = s := by
  simpa using List.find?_some h

end BinaryOp
end FlowAnalysis
