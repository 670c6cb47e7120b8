import FlowAnalysis.Proofs.Analysis.Carried
import FlowAnalysis.Proofs.Report

/-!
Live variables. Main statement: the report on a program lists at a node exactly the variables that
some walk from there reads before it assigns them.
-/
namespace FlowAnalysis

theorem Variable.nodup_ascending (xs : List Variable) : (ascending xs).Nodup :=
  (pairwise_ascending xs).imp String.ne_of_lt

namespace FlowGraph

variable {g : FlowGraph} {n : Nat} {x : Variable}

/-- Node `n` evaluates an expression with `x`. -/
def Reads (g : FlowGraph) (n : Nat) (x : Variable) : Prop :=
  ∃ node e, g.node? n = some node ∧ node.expr? = some e ∧ x ∈ e.reads

theorem mem_uses {node : Node} : x ∈ node.uses ↔ ∃ e, node.expr? = some e ∧ x ∈ e.reads := by
  unfold Node.uses
  cases node.expr? with
  | none => simp
  | some e => simp

theorem mem_genAt_liveVariables : x ∈ g.liveVariables.genAt n ↔ g.Reads n x := by
  have at_n : g.liveVariables.gen[n]? = (g.node? n).map Node.uses := by
    simp [liveVariables, nodes, node?]
  rw [Analysis.genAt, Analysis.mem_getD_nodes at_n]
  simp only [mem_uses, Reads, exists_and_left]

theorem mem_killAt_liveVariables : x ∈ g.liveVariables.killAt n ↔ g.Assigns n x := by
  have at_n : g.liveVariables.kill[n]? = (g.node? n).map (·.assigned?.toList) := by
    simp [liveVariables, nodes, node?]
  rw [Analysis.killAt, Analysis.mem_getD_nodes at_n]
  simp only [Option.mem_toList, Assigns]

theorem Reads.mem_variables (h : g.Reads n x) : x ∈ g.variables := by
  obtain ⟨node, e, at_n, evaluates, mem⟩ := h
  have listed : node ∈ g.nodes := Array.mem_toList_iff.2 (Array.mem_of_getElem? at_n)
  refine Variable.mem_ascending.2 (List.mem_flatMap.2 ⟨node, listed, ?_⟩)
  exact List.mem_append_right _ (mem_uses.2 ⟨e, evaluates, mem⟩)

section Lists

variable {s : Statement} (built : build s = .ok g)
include built

/-- Facts flow to `n` against the walks from it. -/
theorem exists_carries_liveVariables :
    (∃ ns, g.FlowWalk .backward ns n ∧ g.liveVariables.Carries ns x) ↔
      ∃ mid m, Walk g.Step n (n :: mid) m ∧ g.Reads m x ∧ ∀ k ∈ mid, ¬ g.Assigns k x := by
  rw [Analysis.exists_carries_iff]
  simp only [mem_genAt_liveVariables, mem_killAt_liveVariables]
  constructor
  · intro ⟨m, mid, _, walk, reads, keep⟩
    exact ⟨mid.reverse, m, walk.reverse, reads, fun k hk => keep k (List.mem_reverse.1 hk)⟩
  · intro ⟨mid, m, walk, reads, keep⟩
    obtain ⟨node, e, at_m, -⟩ := id reads
    have reached := participates_of_build built .backward (Array.getElem?_eq_some_iff.1 at_m).1
    refine ⟨m, mid.reverse, (participates_iff.1 reached).2, walk.reverse, reads, ?_⟩
    exact fun k hk => keep k (List.mem_reverse.1 hk)

/-- After a node hold the variables that a walk from it reads with no assignment in between. -/
theorem mem_holding_liveVariables {v : Valuation g.liveVariables.problem.size}
    (walks : g.liveVariables.problem.OverWalks g v)
    (hn : g.Participates g.liveVariables.direction n) :
    x ∈ g.liveVariables.holding (.ofBits (v.before n)) ↔
      ∃ mid m, Walk g.Step n (n :: mid) m ∧ g.Reads m x ∧ ∀ k ∈ mid, ¬ g.Assigns k x := by
  refine (Analysis.mem_holding_before walks hn).trans ?_
  refine Iff.trans (and_congr_right fun _ => exists_carries_liveVariables built) ?_
  exact and_iff_right_of_imp fun ⟨_, _, _, reads, _⟩ => reads.mem_variables

end Lists

end FlowGraph
end FlowAnalysis
