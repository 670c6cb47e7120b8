import FlowAnalysis.Expr
import FlowAnalysis.Text.Token

/-!
Expressions read from text. Tokens are read one by one; what still waits for an operand is kept on a
stack, and an operator completes all before it that bind as tightly or more tightly.
-/
namespace FlowAnalysis

namespace Variable

/-- A letter, digit or underscore of ASCII. -/
def nameChar (c : Char) : Bool := c.isAlphanum || c == '_'

/-- There are only letters, digits and underscores, and no digit comes first. -/
def regular (x : Variable) : Bool := x.toList.all nameChar && !x.toList.head?.any Char.isDigit

def isIdentifier (x : Variable) : Bool := x != "" && x.regular

end Variable

namespace Expr

open Text (Token)

/-- What a token says in an expression. -/
inductive Lexeme
  | opening | closing
  | name (x : Variable)
  | number (n : Int)
  | operator (op : BinaryOp)
  deriving DecidableEq

namespace Lexeme

def token : Lexeme → Token
  | opening => .opening
  | closing => .closing
  | name x => .word x
  | number n => .word (toString n)
  | operator op => .word op.symbol

def ofToken? : Token → Option Lexeme
  | .opening => some opening
  | .closing => some closing
  | .newline => none
  | .word w =>
    if Variable.isIdentifier w then some (name w)
    else (operator <$> BinaryOp.ofSymbol? w).or (number <$> w.toInt?)

end Lexeme

/-- What waits until the operand after it is read. -/
inductive Waiting
  | parenthesis
  | operator (left : Expr) (op : BinaryOp)

/-- The operators on top of the stack that bind at least as tightly as precedence `p` take `e` as
their right operand, one after the other. -/
def complete (p : Nat) (stack : List Waiting) (e : Expr) : List Waiting × Expr :=
  match stack with
  | .operator l op :: rest =>
    if p ≤ op.precedence then complete p rest (.binary op l e) else (stack, e)
  | _ => (stack, e)

mutual

/-- Read on where an operand is due. -/
def readOperand (stack : List Waiting) : List Lexeme → Option Expr
  | .opening :: ts => readOperand (.parenthesis :: stack) ts
  | .name x :: ts => readOperator stack (.var x) ts
  | .number n :: ts => readOperator stack (.const n) ts
  | _ => none

/-- Read on after the operand `e`. -/
def readOperator (stack : List Waiting) (e : Expr) : List Lexeme → Option Expr
  | [] =>
    match complete 0 stack e with
    | ([], e) => some e
    | _ => none
  | .closing :: ts =>
    match complete 0 stack e with
    | (.parenthesis :: stack, e) => readOperator stack e ts
    | _ => none
  | .operator op :: ts =>
    let (stack, e) := complete op.precedence stack e
    readOperand (.operator e op :: stack) ts
  | _ => none

end

def ofLexemes? (ts : List Lexeme) : Option Expr := readOperand [] ts

def ofTokens? (ts : List Token) : Option Expr := do ofLexemes? (← ts.mapM Lexeme.ofToken?)

/-- The expression that a text shows. -/
def ofText? (s : String) : Option Expr := ofTokens? (Token.scan s.toList)

/-- The lexemes of an operand that needs parentheses below precedence `context`. -/
def lexemesAt (context : Nat) : Expr → List Lexeme
  | var x => [.name x]
  | const n => [.number n]
  | binary op l r =>
    let body := l.lexemesAt op.precedence ++ .operator op :: r.lexemesAt (op.precedence + 1)
    if op.precedence < context then .opening :: body ++ [.closing] else body

end Expr
end FlowAnalysis
