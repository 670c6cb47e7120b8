import FlowAnalysis.Solver

/-!
Analyses as gen/kill problems whose bits stand for facts. Nothing holds where facts start to flow,
and every node first assumes the top, which the meet of what flows in then brings down.
-/
namespace FlowAnalysis

structure Analysis (α : Type) where
  direction : Direction
  confluence : Confluence
  /-- The facts, bit zero first. -/
  facts : List α
  /-- The facts that each node generates. -/
  gen : List (List α)
  /-- The facts that each node kills. -/
  kill : List (List α)

namespace Analysis

variable {α : Type}

/-- One bit for each of `facts`, set for those in `xs`. -/
def indicator [DecidableEq α] (facts xs : List α) : BitVec facts.length :=
  (BitVec.ofBoolListLE (facts.map (· ∈ xs))).cast (List.length_map _)

theorem getLsbD_indicator [DecidableEq α] {facts xs : List α} {i : Nat} :
    (indicator facts xs).getLsbD i = true ↔ ∃ a, facts[i]? = some a ∧ a ∈ xs := by
  simp only [indicator, BitVec.getLsbD_cast, BitVec.getLsbD_ofBoolListLE]
  cases h : facts[i]? with
  | none => simp [List.getD, h]
  | some a => simp [List.getD, h]

def problem [DecidableEq α] (a : Analysis α) : GenKill where
  direction := a.direction
  confluence := a.confluence
  size := a.facts.length
  boundary := 0#_
  initial := a.confluence.top _
  gen := (a.gen.map (indicator a.facts)).toArray
  kill := (a.kill.map (indicator a.facts)).toArray

/-- The facts that a state holds. Bits beyond the facts stand for nothing. -/
def holding (a : Analysis α) (s : BitSet) : List α := s.toList.filterMap (a.facts[·]?)

theorem mem_holding {a : Analysis α} {s : BitSet} {x : α} :
    x ∈ a.holding s ↔ ∃ i ∈ s, a.facts[i]? = some x := by
  simp [holding]

/-- The bit of a fact. -/
def index? [DecidableEq α] (a : Analysis α) (x : α) : Option Nat := a.facts.idxOf? x

/-- Whether a state holds `x`. -/
def holds [DecidableEq α] (a : Analysis α) (s : BitSet) (x : α) : Bool :=
  match a.index? x with
  | some i => i ∈ s
  | none => false

end Analysis
end FlowAnalysis
