import FlowAnalysis.Statement

/-!
The text of a program: one line for each point and each brace, indented by four spaces a level.
A sequence prints its members at its own level and nothing else.
-/
namespace FlowAnalysis.Statement

/-- A line at nesting `depth`. -/
def line (depth : Nat) (content : String) : String :=
  String.ofList (List.replicate (4 * depth) ' ') ++ content ++ "\n"

mutual

def textAt (depth : Nat) : Statement → String
  | skip => line depth "skip"
  | assign x e => line depth (x ++ " := " ++ e.text)
  | seq body => textAllAt depth body
  | loop c body =>
    line depth ("while (" ++ c.text ++ ") \x7b") ++ body.textAt (depth + 1) ++ line depth "\x7d"
  | branch c t f =>
    line depth ("if (" ++ c.text ++ ") \x7b") ++ t.textAt (depth + 1) ++
      line depth "\x7d else \x7b" ++ f.textAt (depth + 1) ++ line depth "\x7d"

def textAllAt (depth : Nat) : List Statement → String
  | [] => ""
  | s :: rest => s.textAt depth ++ textAllAt depth rest

end

def text (s : Statement) : String := s.textAt 0

end FlowAnalysis.Statement
