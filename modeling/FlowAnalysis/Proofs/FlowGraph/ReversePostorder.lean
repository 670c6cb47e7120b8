import FlowAnalysis.Proofs.FlowGraph.BackEdges

/-!
The reverse postorder follows control. Main statement: it lists every node of a program's graph
once, the entry first, and the source of an edge before its target, unless the edge is a back edge;
in any graph a search finishes what its start reaches, the start last.
-/
namespace FlowAnalysis

namespace Digraph

variable {N E : Type} {h : Digraph N E} {start a b : Nat}

/-- A successor of a node finishes before it, or leads back to it. -/
theorem precedes_or_returns (ha : a ∈ h.postorder start) (step : h.Step a b) :
    Precedes (h.postorder start) b a ∨ ∃ ns, Walk h.Step b ns a :=
  (precedes_postorder ha step).imp_right fun ⟨_, walk, _, mem⟩ => walk.onward mem

end Digraph

namespace FlowGraph

variable {s : Statement} {g : FlowGraph} {e : Edge EdgeKind} {m n t : Nat}

theorem nodup_reversePostorder (g : FlowGraph) : g.reversePostorder.Nodup :=
  List.nodup_reverse.2 (Digraph.nodup_postorder g.graph g.entry)

section Built

variable (built : build s = .ok g)
include built

theorem mem_reversePostorder : n ∈ g.reversePostorder ↔ n < g.nodeCount := by
  rw [reversePostorder, Digraph.reversePostorder, List.mem_reverse]
  exact ⟨fun mem => (Digraph.mem_postorder_iff.1 mem).1, mem_postorder_of_build built⟩

theorem precedes_of_onward (step : g.Step m n) (lt : m < n) :
    Precedes g.reversePostorder m n := by
  have ordered := precedes_or_retreats built (d := .forward) (feeds_forward.2 step)
  rw [visitOrder_eq_walk built] at ordered
  exact ordered.resolve_right (Nat.not_le_of_lt lt)

/-- Control comes to every node but the entry from an earlier node as well. -/
theorem exists_onward_step (lt : n < g.nodeCount) (inner : n ≠ g.entry) :
    ∃ m < n, g.Step m n := by
  obtain ⟨-, ns, walk⟩ := participates_of_build built .forward lt
  obtain ⟨ms, direct, nodup, -⟩ := walk.exists_nodup
  obtain ⟨accepted, rfl⟩ := build_eq_ok.1 built
  cases ms using List.reverseRecOn with
  | nil => exact absurd (Walk.nil_iff.1 direct) inner
  | append_singleton ms m =>
    have mem : m ∈ ms ++ [m] := List.mem_append_right _ (List.mem_singleton_self m)
    have le := le_of_nodup_walk accepted direct nodup (List.mem_append_left _ mem)
    have ne : m ≠ n := (List.nodup_append.1 nodup).2.2 m mem n (List.mem_singleton_self n)
    exact ⟨m, Nat.lt_of_le_of_ne le ne, (Walk.concat_iff.1 direct).2⟩

/-- The test of a loop comes before what is in the loop. -/
theorem precedes_of_closesLoop (closes : s.ClosesLoop n t) : Precedes g.reversePostorder t n := by
  obtain ⟨e, mem, lt, inside⟩ := closes
  have bounds := Statement.loops_bounds mem
  induction n using Nat.strongRecOn with
  | ind n ih =>
    have node : n < g.nodeCount ∧ n ≠ g.entry := by
      obtain ⟨-, rfl⟩ := build_eq_ok.1 built
      rw [nodeCount_ofStatement]
      exact ⟨by omega, Nat.ne_of_gt (Nat.lt_of_le_of_lt (Nat.zero_le t) lt)⟩
    obtain ⟨m, earlier, step⟩ := exists_onward_step built node.1 node.2
    have last := precedes_of_onward built step earlier
    by_cases around : Statement.Around m (t, e)
    · obtain rfl | later := Nat.eq_or_lt_of_le around.1
      · exact last
      · exact (ih m earlier later around.2).trans last (nodup_reversePostorder g)
    · -- from outside control enters the loop at the test alone
      obtain ⟨accepted, rfl⟩ := build_eq_ok.1 built
      have point := lt_of_step_ofStatement step
      have test := (wired_ofStatement accepted).test_of_entry (by omega) mem (Nat.zero_le m)
        (by omega) step around ⟨Nat.le_of_lt lt, inside⟩
      exact absurd test (Nat.ne_of_gt lt)

/-- The ends of an edge are in the order of the edge, unless it is a back edge. -/
theorem precedes_iff_onward (he : e ∈ g.graph.edges) :
    (Precedes g.reversePostorder e.source e.target ↔ e.data ≠ .back) ∧
      (e.data = .back → Precedes g.reversePostorder e.target e.source) := by
  have backward : e.data = .back → Precedes g.reversePostorder e.target e.source := fun back =>
    precedes_of_closesLoop built (closesLoop_of_back built he back)
  refine ⟨⟨fun forward back => forward.asymm (nodup_reversePostorder g) (backward back), ?_⟩,
    backward⟩
  intro onward
  have directed := directed_of_build built he
  exact precedes_of_onward built (Digraph.mem_successors.2 ⟨e, he, rfl, rfl⟩)
    (directed.resolve_left fun back => onward back.1).2

theorem head?_reversePostorder : g.reversePostorder.head? = some g.entry := by
  rw [reversePostorder, Digraph.reversePostorder, List.head?_reverse]
  exact Digraph.getLast?_postorder (entry_lt built)

end Built

/-- The reverse postorder of a program's graph has every node once, the entry first. The source of
an edge comes before its target, or after it if the edge is a back edge. A search in any graph
finishes the nodes to which its start leads, each once and the start last; where an edge leads on
from one of them, its target finishes before its source or leads back to it. -/
theorem reversePostorder_follows_control :
    (∀ {s g}, build s = .ok g →
      g.reversePostorder.Nodup ∧ (∀ n, n ∈ g.reversePostorder ↔ n < g.nodeCount) ∧
      g.reversePostorder.head? = some g.entry ∧
      ∀ e ∈ g.graph.edges,
        (Precedes g.reversePostorder e.source e.target ↔ e.data ≠ .back) ∧
        (e.data = .back → Precedes g.reversePostorder e.target e.source)) ∧
    ∀ {N E : Type} (h : Digraph N E) {start : Nat}, start < h.nodeCount →
      (∀ n, n ∈ h.postorder start ↔ ∃ ns, Walk h.Step start ns n) ∧
      (h.postorder start).Nodup ∧ (h.postorder start).getLast? = some start ∧
      ∀ e ∈ h.edges, (∃ ns, Walk h.Step start ns e.source) →
        Precedes (h.postorder start) e.target e.source ∨
          ∃ ns, Walk h.Step e.target ns e.source := by
  refine ⟨fun {s g} built => ⟨nodup_reversePostorder g, fun n => mem_reversePostorder built,
    head?_reversePostorder built, fun e he => precedes_iff_onward built he⟩,
    fun {N E} h {start} lt => ?_⟩
  have finished : ∀ n, n ∈ h.postorder start ↔ ∃ ns, Walk h.Step start ns n := by
    refine fun n => Digraph.mem_postorder_iff.trans (and_iff_right_of_imp ?_)
    rintro ⟨ns, walk⟩
    exact walk.keeps (P := (· < h.nodeCount)) (fun _ _ step _ => step.target_lt) lt
  refine ⟨finished, Digraph.nodup_postorder h start, Digraph.getLast?_postorder lt, ?_⟩
  intro e he reached
  exact Digraph.precedes_or_returns ((finished e.source).2 reached)
    (Digraph.mem_successors.2 ⟨e, he, rfl, rfl⟩)

/-- The last point of the loop comes after its test, to which it leads back. A search that starts
within the loop finishes the test before its start. -/
theorem reversePostorder_follows_control_countdown :
    build .countdown = .ok (ofStatement .countdown) ∧
      (ofStatement .countdown).reversePostorder.head? = some 0 ∧
      Precedes (ofStatement .countdown).reversePostorder 1 2 ∧
      Precedes (ofStatement .countdown).reversePostorder 0 2 ∧
      ((ofStatement .countdown).graph.postorder 1).getLast? = some 1 ∧
      0 ∈ (ofStatement .countdown).graph.postorder 1 := by
  obtain ⟨follows, searches⟩ := reversePostorder_follows_control
  obtain ⟨-, -, first, ordered⟩ := follows build_countdown
  have node : 1 < (ofStatement .countdown).graph.nodeCount := by decide
  obtain ⟨finishes, -, last, -⟩ := searches _ node
  have edges : (ofStatement .countdown).graph.edges =
      #[⟨1, 2, .sequential⟩, ⟨0, 1, .whenTrue⟩, ⟨2, 0, .back⟩, ⟨0, 3, .whenFalse⟩] := rfl
  have onward : ⟨1, 2, .sequential⟩ ∈ (ofStatement .countdown).graph.edges := by simp [edges]
  have back : ⟨2, 0, .back⟩ ∈ (ofStatement .countdown).graph.edges := by simp [edges]
  have leads : Walk (ofStatement .countdown).graph.Step 1 [1, 2] 0 :=
    (Walk.single (Digraph.mem_successors.2 ⟨_, onward, rfl, rfl⟩)).step
      (Digraph.mem_successors.2 ⟨_, back, rfl, rfl⟩)
  exact ⟨build_countdown, first, (ordered _ onward).1.2 nofun, (ordered _ back).2 rfl, last,
    (finishes 0).2 ⟨_, leads⟩⟩

end FlowGraph
end FlowAnalysis
