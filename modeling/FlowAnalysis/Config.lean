import FlowAnalysis.Analysis.AvailableExprs

/-!
What to analyze, and how.
-/
namespace FlowAnalysis

inductive AnalysisKind
  | availableExprs | reachingDefs | liveVariables
  deriving DecidableEq

namespace AnalysisKind

def all : List AnalysisKind := [availableExprs, reachingDefs, liveVariables]

def text : AnalysisKind → String
  | availableExprs => "available-expressions"
  | reachingDefs => "reaching-definitions"
  | liveVariables => "live-variables"

/-- The analysis written `s`. -/
def ofText? (s : String) : Option AnalysisKind := all.find? (·.text == s)

end AnalysisKind

/-- The scope matters to available expressions alone. -/
structure Config where
  kind : AnalysisKind := .availableExprs
  strategy : Strategy := .gaussSeidel
  scope : Scope := .topLevel
  deriving DecidableEq

end FlowAnalysis
