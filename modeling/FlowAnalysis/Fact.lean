import FlowAnalysis.Expr
import FlowAnalysis.Label

/-!
Facts as reports show them, and tables of facts in the order of labels. Main statement: a table
holds for each label what was last set there.
-/
namespace FlowAnalysis

inductive Fact
  | expr (e : Expr)
  | definition (label : Label) (target : Variable)
  | var (x : Variable)
  deriving DecidableEq, Ord

def Fact.text : Fact → String
  | expr e => e.text
  | definition l x => "(" ++ x ++ ", " ++ l.text ++ ")"
  | var x => x

/-- The facts on entry to a node and on exit from it. -/
structure NodeFacts where
  entry : List Fact
  exit : List Fact
  deriving DecidableEq

/-- A table in the order of labels with one row for a label. -/
abbrev FactTable := List (Label × NodeFacts)

namespace FactTable

/-- Set the row of `l`; an earlier row of `l` is lost. -/
def insert (l : Label) (f : NodeFacts) : FactTable → FactTable
  | [] => [(l, f)]
  | (m, g) :: rest =>
    if l < m then (l, f) :: (m, g) :: rest
    else if l = m then (l, f) :: rest
    else (m, g) :: insert l f rest

/-- A row is found where it was last set. -/
theorem lookup_insert (l m : Label) (f : NodeFacts) (t : FactTable) :
    (t.insert l f).lookup m = if m = l then some f else t.lookup m := by
  induction t with
  | nil => simp only [insert]; grind
  | cons row rest ih =>
    obtain ⟨k, g⟩ := row
    simp only [insert]
    grind

/-- The table of all rows, the last of those of one label. -/
def ofRows (rows : List (Label × NodeFacts)) : FactTable :=
  rows.foldl (fun t (l, f) => t.insert l f) []

end FactTable

end FlowAnalysis
