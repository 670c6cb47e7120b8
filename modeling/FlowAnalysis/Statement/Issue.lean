import FlowAnalysis.Statement

/-!
What makes a program unacceptable: blank variable names and empty sequences. Issues are listed in
program order, a statement's own before those of its parts.
-/
namespace FlowAnalysis

/-- The place that a sequence fills. -/
inductive BlockKind
  | sequence | loopBody | trueBranch | falseBranch
  deriving DecidableEq

namespace BlockKind

def all : List BlockKind := [sequence, loopBody, trueBranch, falseBranch]

def text : BlockKind → String
  | sequence => "statement sequence"
  | loopBody => "loop body"
  | trueBranch => "true branch"
  | falseBranch => "false branch"

end BlockKind

inductive Issue
  | blankName
  | emptyBlock (block : BlockKind)
  deriving DecidableEq

namespace Issue

def message : Issue → String
  | blankName => "Invalid program - variable names must not be empty"
  | emptyBlock block =>
    "Empty " ++ block.text ++ " - blocks must contain at least one statement"

end Issue

/-- A name that shows nothing is an issue. -/
def Variable.issue? (x : Variable) : Option Issue := if x.wellNamed then none else some .blankName

/-- At most one issue, however many names are blank. -/
def Expr.issue? (e : Expr) : Option Issue := if e.wellNamed then none else some .blankName

namespace Statement

/-- The issue of the names that `s` itself holds, without its parts. -/
def ownIssue? : Statement → Option Issue
  | skip => none
  | assign x e => x.issue?.or e.issue?
  | seq _ => none
  | loop c _ => c.issue?
  | branch c _ _ => c.issue?

mutual

/-- Every issue of a statement that stands where `block` says. -/
def issues (block : BlockKind) : Statement → List Issue
  | skip => []
  | assign x e => (x.issue?.or e.issue?).toList
  | seq body => if body.isEmpty then [.emptyBlock block] else issuesAll body
  | loop c body => c.issue?.toList ++ body.issues .loopBody
  | branch c t f => c.issue?.toList ++ t.issues .trueBranch ++ f.issues .falseBranch

/-- The issues of the members of a sequence. -/
def issuesAll : List Statement → List Issue
  | [] => []
  | s :: rest => s.issues .sequence ++ issuesAll rest

end

end Statement
end FlowAnalysis
