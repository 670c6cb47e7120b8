import FlowAnalysis.Proofs.Analysis.Carried
import FlowAnalysis.Proofs.FirstOccurrence
import FlowAnalysis.Proofs.Report

/-!
Available expressions. Main statement: the report on a program lists at a node exactly the tracked
expressions that every walk from the entry computes without changing a variable of them afterwards.
-/
namespace FlowAnalysis

theorem Expr.mentions_iff_mem_reads {e : Expr} {x : Variable} :
    e.mentions x = true ↔ x ∈ e.reads := by
  rw [mentions_iff, mem_variables]

/-- `e` stands in an expression: as the whole of it, or within an operand. -/
inductive Expr.PartOf (e : Expr) : Expr → Prop
  | whole : PartOf e e
  | left {op : BinaryOp} {l r : Expr} (part : PartOf e l) : PartOf e (binary op l r)
  | right {op : BinaryOp} {l r : Expr} (part : PartOf e r) : PartOf e (binary op l r)

theorem Expr.mem_binarySubexprs {e c : Expr} :
    e ∈ c.binarySubexprs ↔ e.isBinary = true ∧ e.PartOf c := by
  constructor
  · intro mem
    refine ⟨isBinary_of_mem_binarySubexprs mem, ?_⟩
    induction c with
    | var x => simp [binarySubexprs] at mem
    | const n => simp [binarySubexprs] at mem
    | binary op l r hl hr =>
      simp only [binarySubexprs, List.mem_append, List.mem_singleton] at mem
      obtain (inLeft | inRight) | rfl := mem
      · exact .left (hl inLeft)
      · exact .right (hr inRight)
      · exact .whole
  · rintro ⟨binary, part⟩
    induction part with
    | whole =>
      cases e with
      | var x => simp [isBinary] at binary
      | const n => simp [isBinary] at binary
      | binary op l r => simp [binarySubexprs]
    | left _ ih => simp [binarySubexprs, ih]
    | right _ ih => simp [binarySubexprs, ih]

/-- Where `c` is evaluated, the scope looks at `e`: at `c` as a whole, or at each binary part. -/
def Scope.Covers : Scope → Expr → Expr → Prop
  | topLevel, c, e => e = c
  | nested, c, e => e.isBinary = true ∧ e.PartOf c

theorem Scope.mem_candidates {scope : Scope} {c e : Expr} :
    e ∈ scope.candidates c ↔ e.isBinary = true ∧ scope.Covers c e := by
  cases scope with
  | topLevel =>
    simp only [candidates, Covers]
    split
    next binary =>
      rw [List.mem_singleton]
      exact ⟨fun same => ⟨same ▸ binary, same⟩, fun covered => covered.2⟩
    next other =>
      refine ⟨fun mem => absurd mem List.not_mem_nil, ?_⟩
      rintro ⟨binary, rfl⟩
      exact absurd binary other
  | nested => simp only [candidates, Covers, Expr.mem_binarySubexprs, ← and_assoc, and_self]

namespace Node

variable {scope : Scope} {node : Node} {e : Expr} {facts : List Expr}

/-- The node evaluates `e` as a part that is tracked, and does not assign a variable of `e`. -/
def Computes (scope : Scope) (node : Node) (e : Expr) : Prop :=
  match node.action with
  | .test c => e ∈ scope.candidates c
  | .assign x r => e ∈ scope.candidates r ∧ x ∉ e.reads
  | .skip | .exit => False

/-- The node assigns a variable of `e`. -/
def Changes (node : Node) (e : Expr) : Prop := ∃ x, node.assigned? = some x ∧ x ∈ e.reads

theorem mem_makesAvailable : e ∈ node.makesAvailable scope ↔ node.Computes scope e := by
  obtain ⟨label, action⟩ := node
  cases action with
  | skip => simp [makesAvailable, Computes, candidates, assigned?, expr?]
  | assign x r =>
    simp only [makesAvailable, Computes, candidates, assigned?, expr?, Option.map_some,
      Option.getD_some, List.mem_filter, Bool.not_eq_true', ← Bool.not_eq_true,
      Expr.mentions_iff_mem_reads]
  | test c => simp [makesAvailable, Computes, candidates, assigned?, expr?]
  | exit => simp [makesAvailable, Computes, candidates, assigned?, expr?]

theorem Computes.mem_candidates (h : node.Computes scope e) : e ∈ node.candidates scope := by
  obtain ⟨label, action⟩ := node
  cases action with
  | skip => exact h.elim
  | assign x r => exact h.1
  | test c => exact h
  | exit => exact h.elim

theorem mem_makesUnavailable :
    e ∈ node.makesUnavailable facts ↔ e ∈ facts ∧ node.Changes e := by
  unfold makesUnavailable Changes
  cases node.assigned? with
  | none => simp
  | some x => simp [Expr.mentions_iff_mem_reads]

end Node

namespace FlowGraph

variable {g : FlowGraph} {scope : Scope} {ns : List Nat} {e : Expr} {n : Nat}

/-- The tracked expressions as often as nodes evaluate them, in the order of the nodes. -/
def occurrences (g : FlowGraph) (scope : Scope) : List Expr :=
  g.nodes.flatMap (Node.candidates scope)

/-- A node of `ns` computes `e`, and no later one changes it. -/
def ComputesAlong (g : FlowGraph) (scope : Scope) (ns : List Nat) (e : Expr) : Prop :=
  ∃ pre m post, ns = pre ++ m :: post ∧
    (∃ node, g.node? m = some node ∧ node.Computes scope e) ∧
    ∀ k ∈ post, ∀ node, g.node? k = some node → ¬ node.Changes e

theorem mem_trackedExprs : e ∈ g.trackedExprs scope ↔ e ∈ g.occurrences scope := List.mem_eraseDups

theorem mem_genAt_availableExprs : e ∈ (g.availableExprs scope).genAt n ↔
    ∃ node, g.node? n = some node ∧ node.Computes scope e := by
  have at_n : (g.availableExprs scope).gen[n]? = (g.node? n).map (Node.makesAvailable scope) := by
    simp [availableExprs, nodes, node?]
  rw [Analysis.genAt, Analysis.mem_getD_nodes at_n]
  simp only [Node.mem_makesAvailable]

theorem mem_killAt_availableExprs (tracked : e ∈ g.occurrences scope) :
    e ∈ (g.availableExprs scope).killAt n ↔ ∃ node, g.node? n = some node ∧ node.Changes e := by
  have at_n : (g.availableExprs scope).kill[n]? =
      (g.node? n).map (Node.makesUnavailable (g.trackedExprs scope)) := by
    simp [availableExprs, nodes, node?]
  rw [Analysis.killAt, Analysis.mem_getD_nodes at_n]
  simp only [Node.mem_makesUnavailable, mem_trackedExprs, tracked, true_and]

theorem carries_availableExprs (tracked : e ∈ g.occurrences scope) :
    (g.availableExprs scope).Carries ns e ↔ g.ComputesAlong scope ns e := by
  simp only [Analysis.Carries, ComputesAlong, mem_genAt_availableExprs,
    mem_killAt_availableExprs tracked, not_exists, not_and]

theorem not_computesAlong_nil : ¬ g.ComputesAlong scope [] e := by
  intro ⟨pre, m, post, whole, _⟩
  simp at whole

theorem computesAlong_concat (tracked : e ∈ g.occurrences scope) :
    g.ComputesAlong scope (ns ++ [n]) e ↔
      (∃ node, g.node? n = some node ∧ node.Computes scope e) ∨
        g.ComputesAlong scope ns e ∧ ∀ node, g.node? n = some node → ¬ node.Changes e := by
  rw [← carries_availableExprs tracked, Analysis.carries_concat, mem_genAt_availableExprs,
    mem_killAt_availableExprs tracked, carries_availableExprs tracked]
  simp only [not_exists, not_and]

theorem forall_carries_iff (f : List Nat → List Nat) :
    (e ∈ g.trackedExprs scope ∧
      ∀ ns, g.FlowWalk .forward ns n → (g.availableExprs scope).Carries (f ns) e) ↔
    e ∈ g.occurrences scope ∧
      ∀ ns, Walk g.Step g.entry ns n → g.ComputesAlong scope (f ns) e := by
  rw [mem_trackedExprs]
  refine and_congr_right fun tracked => ?_
  simp only [flowWalk_forward, carries_availableExprs tracked]

/-- Lists of tracked expressions without repetition, each expression where it first occurs. -/
structure InOrder (g : FlowGraph) (scope : Scope) (es : List Expr) : Prop where
  nodup : es.Nodup
  ascending : es.Pairwise fun a b => (g.occurrences scope).idxOf a < (g.occurrences scope).idxOf b

theorem inOrder_of_sublist {es : List Expr} (sub : es.Sublist (g.trackedExprs scope)) :
    g.InOrder scope es where
  nodup := (nodup_eraseDups _).sublist sub
  ascending := (pairwise_idxOf_eraseDups _).sublist sub

end FlowGraph
end FlowAnalysis
