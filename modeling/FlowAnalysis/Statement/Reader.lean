import FlowAnalysis.Expr.Reader
import FlowAnalysis.Statement

/-!
Programs read from text, line by line. Loops and branches whose last brace is still to come are kept
on a stack, each with the members that come before it.
-/
namespace FlowAnalysis

open Text (Token)

/-- What one line of a program says. -/
inductive Line
  | skip
  | assign (target : Variable) (value : Expr)
  | loop (condition : Expr)
  | branch (condition : Expr)
  | otherwise | close
  deriving DecidableEq

namespace Line

/-- The tokens of a condition, from its parenthesis to the brace after it. -/
def conditionTokens (c : Expr) : List Token :=
  .opening :: ((c.lexemesAt 0).map Expr.Lexeme.token ++ [.closing, .word "\x7b"])

def tokens : Line → List Token
  | skip => [.word "skip"]
  | assign x e => .word x :: .word ":=" :: (e.lexemesAt 0).map Expr.Lexeme.token
  | loop c => .word "while" :: conditionTokens c
  | branch c => .word "if" :: conditionTokens c
  | otherwise => [.word "\x7d", .word "else", .word "\x7b"]
  | close => [.word "\x7d"]

def condition? : List Token → Option Expr
  | .opening :: ts =>
    match ts.reverse with
    | .word "\x7b" :: .closing :: us => Expr.ofTokens? us.reverse
    | _ => none
  | _ => none

def ofTokens? : List Token → Option Line
  | [.word "skip"] => some skip
  | [.word "\x7d"] => some close
  | [.word "\x7d", .word "else", .word "\x7b"] => some otherwise
  | .word x :: .word ":=" :: ts =>
    if Variable.isIdentifier x then assign x <$> Expr.ofTokens? ts else none
  | .word "while" :: ts => loop <$> condition? ts
  | .word "if" :: ts => branch <$> condition? ts
  | _ => none

end Line

namespace Statement

/-- A loop or a branch that has not ended yet. -/
inductive Block
  | loop (before : List Statement) (condition : Expr)
  | whenTrue (before : List Statement) (condition : Expr)
  | whenFalse (before : List Statement) (condition : Expr) (yes : List Statement)

/-- Read on after the members `done` of the innermost block. -/
def readLines : List Block → List Statement → List Line → Option (List Statement)
  | [], done, [] => some done
  | stack, done, .skip :: ls => readLines stack (done ++ [skip]) ls
  | stack, done, .assign x e :: ls => readLines stack (done ++ [assign x e]) ls
  | stack, done, .loop c :: ls => readLines (.loop done c :: stack) [] ls
  | stack, done, .branch c :: ls => readLines (.whenTrue done c :: stack) [] ls
  | .whenTrue before c :: stack, done, .otherwise :: ls =>
    readLines (.whenFalse before c done :: stack) [] ls
  | .loop before c :: stack, done, .close :: ls =>
    readLines stack (before ++ [loop c (seq done)]) ls
  | .whenFalse before c yes :: stack, done, .close :: ls =>
    readLines stack (before ++ [branch c (seq yes) (seq done)]) ls
  | _, _, _ => none

/-- The members of the program that a text shows. -/
def ofText? (s : String) : Option (List Statement) := do
  let pieces := (Token.scan s.toList).splitOn .newline
  readLines [] [] (← (pieces.filter (· ≠ [])).mapM Line.ofTokens?)

mutual

/-- The lines of a statement. A sequence has those of its members. -/
def lines : Statement → List Line
  | skip => [.skip]
  | assign x e => [.assign x e]
  | seq body => linesAll body
  | loop c body => .loop c :: body.lines ++ [.close]
  | branch c t f => .branch c :: t.lines ++ .otherwise :: f.lines ++ [.close]

def linesAll : List Statement → List Line
  | [] => []
  | s :: rest => s.lines ++ linesAll rest

end

end Statement
end FlowAnalysis
