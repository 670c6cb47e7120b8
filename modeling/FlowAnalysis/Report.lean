import FlowAnalysis.Analysis.LiveVariables
import FlowAnalysis.Analysis.ReachingDefs
import FlowAnalysis.Config
import FlowAnalysis.Fact
import FlowAnalysis.FlowGraph.Build

/-!
Reports: what an analysis finds on entry to and on exit from each program point, in the order of
labels.
-/
namespace FlowAnalysis

structure Report where
  kind : AnalysisKind
  passes : Nat
  edges : List (Label × Label)
  facts : FactTable
  warnings : List Warning

namespace Report

/-- The facts under a label. -/
def find? (r : Report) (l : Label) : Option NodeFacts := r.facts.lookup l

def entry? (r : Report) (l : Label) : Option (List Fact) := (r.find? l).map (·.entry)

def exit? (r : Report) (l : Label) : Option (List Fact) := (r.find? l).map (·.exit)

/-- The report on solved states, whose facts `describe` lists. -/
def ofResults (kind : AnalysisKind) (g : FlowGraph) (r : Results BitSet)
    (describe : BitSet → List Fact) : Report where
  kind := kind
  passes := r.passes
  edges := g.edges
  facts := .ofRows <| g.nodes.zipIdx.map fun (node, i) =>
    (node.label,
      ⟨(r.entryStates[i]?.map describe).getD [], (r.exitStates[i]?.map describe).getD []⟩)
  warnings := r.warnings

/-- Facts in braces. -/
def setText (facts : List Fact) : String :=
  "\x7b" ++ ", ".intercalate (facts.map Fact.text) ++ "\x7d"

/-- Blanks before a text that is shorter than `width`. -/
def padLeft (width : Nat) (s : String) : String :=
  String.ofList (List.replicate (width - s.length) ' ') ++ s

def rowText (l : Label) (f : NodeFacts) : String :=
  padLeft 5 l.text ++ "  entry " ++ setText f.entry ++ "  exit " ++ setText f.exit ++ "\n"

/-- The kind and the number of passes, the edges on a line, a line for each label, and a line for
each warning. -/
def text (r : Report) : String :=
  r.kind.text ++ " (" ++ toString r.passes ++ " passes)\n" ++
    "edges:" ++ String.join (r.edges.map fun (a, b) => " (" ++ a.text ++ ", " ++ b.text ++ ")") ++
    "\n" ++
    String.join (r.facts.map fun (l, f) => rowText l f) ++
    String.join (r.warnings.map fun w => "warning: " ++ w.text ++ "\n")

end Report

/-- Solve an analysis from scratch. -/
def Analysis.solve {α : Type} [DecidableEq α] (a : Analysis α) (g : FlowGraph)
    (strategy : Strategy) : Except Fault (Results BitSet) :=
  ((Solver.new g a.problem).withStrategy strategy).solve

/-- The report on an analysis whose facts read as `fact` says. -/
def Analysis.report {α : Type} [DecidableEq α] (a : Analysis α) (g : FlowGraph)
    (config : Config) (fact : α → Fact) : Except Fault Report := do
  let r ← a.solve g config.strategy
  return .ofResults config.kind g r fun s => (a.holding s).map fact

namespace FlowGraph

/-- The report that `config` asks for. -/
def analyze (config : Config) (g : FlowGraph) : Except Fault Report :=
  match config.kind with
  | .availableExprs => (g.availableExprs config.scope).report g config .expr
  | .reachingDefs => g.reachingDefs.report g config fun d => .definition d.label d.target
  | .liveVariables => g.liveVariables.report g config .var

end FlowGraph

/-- Why a program has no report. -/
inductive Failure
  | issue (i : Issue)
  | fault (f : Fault)
  deriving DecidableEq

/-- The report on a program. -/
def Statement.analyze (config : Config) (s : Statement) : Except Failure Report := do
  let g ← (FlowGraph.build s).mapError .issue
  (g.analyze config).mapError .fault

end FlowAnalysis
