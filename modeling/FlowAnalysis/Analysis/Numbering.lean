import FlowAnalysis.Analysis.AvailableExprs
import FlowAnalysis.Analysis.LiveVariables
import FlowAnalysis.Analysis.ReachingDefs
import FlowAnalysis.WordSet
import Mathlib.Data.List.Basic

/-!
Facts by number, ways to find the number of a fact, and what sets of numbers in words say of facts.
Expressions are found by their hash, variables by bisection, and definitions by their label.
-/
namespace FlowAnalysis

deriving instance Hashable for BinaryOp
deriving instance Hashable for Expr

/-- Facts by number, and the number of the fact under a key. -/
structure Numbering (α κ : Type) where
  facts : Array α
  key : α → κ
  index? : κ → Option Nat

namespace Numbering

variable {α κ : Type}

/-- Whether a set has the number of the fact under `k`. -/
def holds (m : Numbering α κ) (s : WordSet) (k : κ) : Bool :=
  match m.index? k with
  | some i => s.contains i
  | none => false

/-- The facts whose numbers a set has. Numbers beyond the facts stand for nothing. -/
def listing (m : Numbering α κ) (s : WordSet) : List α := s.toList.filterMap (m.facts[·]?)

end Numbering

/-- Expressions by number, and their numbers by hash. -/
structure ExprTable where
  exprs : Array Expr
  index : Std.HashMap Expr Nat
  inverts : ∀ (e : Expr) (i : Nat), index[e]? = some i ↔ exprs[i]? = some e

namespace ExprTable

def empty : ExprTable := ⟨#[], ∅, by simp⟩

theorem inverts_push {t : ExprTable} {e : Expr} (fresh : ¬ t.index.contains e = true) (c : Expr)
    (i : Nat) : (t.index.insert e t.exprs.size)[c]? = some i ↔ (t.exprs.push e)[i]? = some c := by
  rw [Std.HashMap.getElem?_insert, Array.getElem?_push]
  by_cases own : e = c
  · subst own
    have absent : t.exprs[i]? ≠ some e := fun there => fresh <| by
      rw [Std.HashMap.contains_eq_isSome_getElem?, (t.inverts e i).2 there]
      rfl
    by_cases last : i = t.exprs.size
    · simp [last]
    · simp [last, absent, Ne.symm last]
  · by_cases last : i = t.exprs.size
    · have beyond : t.index[c]? ≠ some t.exprs.size := by
        rw [Ne, t.inverts]
        simp
      simp [own, last, beyond]
    · simp [own, last, t.inverts]

/-- Give the next number to `e`, unless it has one. -/
def add (t : ExprTable) (e : Expr) : ExprTable :=
  if known : t.index.contains e then t
  else ⟨t.exprs.push e, t.index.insert e t.exprs.size, inverts_push known⟩

end ExprTable

namespace Variable

/-- The place where a window of `size` variables from `base` on has `x`, if they ascend and it has
it at all. -/
def bisect (xs : Array Variable) (x : Variable) (base size : Nat) : Nat :=
  if size ≤ 1 then base
  else
    let mid := base + size / 2
    if xs[mid]?.any (x < ·) then bisect xs x base (size - size / 2)
    else bisect xs x mid (size - size / 2)
termination_by size

/-- The place of `x` among variables that ascend. -/
def index? (xs : Array Variable) (x : Variable) : Option Nat :=
  let i := bisect xs x 0 xs.size
  if xs[i]? = some x then some i else none

end Variable

namespace FlowGraph

/-- The tracked expressions, by first occurrence. -/
def exprNumbering (scope : Scope) (g : FlowGraph) : Numbering Expr Expr :=
  let candidates := (g.nodes.filterMap (·.expr?)).flatMap scope.candidates
  let t := candidates.foldl ExprTable.add .empty
  { facts := t.exprs
    key := id
    index? := (t.index[·]?) }

/-- The variables read or assigned anywhere, ascending. -/
def variableNumbering (g : FlowGraph) : Numbering Variable Variable :=
  let names := g.variables.toArray
  { facts := names
    key := id
    index? := Variable.index? names }

/-- The labels of the assignments and their variables, found by the first of a label. -/
def definitionNumbering (g : FlowGraph) : Numbering (Label × Variable) Label :=
  let pairs := (g.definitions.map fun d => (d.label, d.target)).toArray
  { facts := pairs
    key := Prod.fst
    index? := fun l => pairs.findIdx? (·.1 == l) }

end FlowGraph
end FlowAnalysis
