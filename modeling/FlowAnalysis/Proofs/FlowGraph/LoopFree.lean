import FlowAnalysis.Proofs.FlowGraph.BackEdges

/-!
Programs without loops. Main statements: a program with a loop has an edge that leads back, so that
control can return to where it was; and the visiting order of a program's graph has all nodes after
their sources just when the program has no loop.
-/
namespace FlowAnalysis
namespace Statement

-- by recursion on the statement; the body of a loop has an exit, from which an edge leads back
mutual

theorem exists_back (s : Statement) (block : BlockKind) (i : Nat)
    (accepted : s.issues block = []) (loops : s.loopDepth ≠ 0) :
    ∃ e ∈ s.edges i, e.data = .back := by
  cases s with
  | skip => exact absurd rfl loops
  | assign x e => exact absurd rfl loops
  | seq body =>
    simp only [issues, List.isEmpty_iff] at accepted
    split at accepted
    next => cases accepted
    next => exact exists_backAll body i [] accepted loops
  | loop c body =>
    simp only [issues, List.append_eq_nil_iff] at accepted
    have fragment := fragment (R := fun _ _ => True) body .loopBody (i + 1) accepted.2
      fun _ _ => trivial
    obtain ⟨x, hx, -⟩ :=
      fragment.left (i + 1) (Nat.le_refl _) (Nat.lt_add_of_pos_right fragment.pos)
    have mem : ⟨x.1, i, .back⟩ ∈ linkBack (body.exits (i + 1)) i := List.mem_map.2 ⟨x, hx, rfl⟩
    exact ⟨_, List.mem_append_right _ (List.mem_cons_of_mem _ mem), rfl⟩
  | branch c t f =>
    simp only [issues, List.append_eq_nil_iff] at accepted
    by_cases inYes : t.loopDepth = 0
    · have inNo : f.loopDepth ≠ 0 := by
        intro none
        exact loops (by rw [loopDepth, inYes, none, Nat.max_self])
      obtain ⟨e, mem, back⟩ := exists_back f .falseBranch (i + 1 + t.size) accepted.2 inNo
      exact ⟨e, List.mem_append_left _ (List.mem_append_right _ mem), back⟩
    · obtain ⟨e, mem, back⟩ := exists_back t .trueBranch (i + 1) accepted.1.2 inYes
      exact ⟨e, List.mem_append_left _ (List.mem_append_left _ mem), back⟩

theorem exists_backAll (body : List Statement) (i : Nat) (pending : List (Nat × EdgeKind))
    (accepted : issuesAll body = []) (loops : loopDepthAll body ≠ 0) :
    ∃ e ∈ edgesAll i pending body, e.data = .back := by
  cases body with
  | nil => exact absurd rfl loops
  | cons s rest =>
    simp only [issuesAll, List.append_eq_nil_iff] at accepted
    by_cases first : s.loopDepth = 0
    · have later : loopDepthAll rest ≠ 0 := by
        intro none
        exact loops (by rw [loopDepthAll, first, none, Nat.max_self])
      obtain ⟨e, mem, back⟩ := exists_backAll rest (i + s.size) (s.exits i) accepted.2 later
      exact ⟨e, List.mem_append_right _ mem, back⟩
    · obtain ⟨e, mem, back⟩ := exists_back s .sequence i accepted.1 first
      exact ⟨e, List.mem_append_left _ (List.mem_append_left _ mem), back⟩

end

end Statement

namespace FlowGraph

variable {s : Statement} {g : FlowGraph} {d : Direction} (built : build s = .ok g)
include built

/-- Control can come back to the test of a loop. -/
theorem exists_closed_walk (loops : s.loopDepth ≠ 0) : ∃ n ns, Walk g.Step n (n :: ns) n := by
  obtain ⟨e, mem, back⟩ : ∃ e ∈ g.graph.edges, e.data = .back := by
    obtain ⟨accepted, rfl⟩ := build_eq_ok.1 built
    obtain ⟨e, mem, back⟩ := s.exists_back .sequence 0 accepted loops
    exact ⟨e, List.mem_toArray.2 (List.mem_append_left _ mem), back⟩
  have step : g.Step e.source e.target := Digraph.mem_successors.2 ⟨e, mem, rfl, rfl⟩
  obtain ⟨-, ns, walk⟩ := participates_of_build built .forward (g.graph.valid e mem).1
  have through := dominates_of_closesLoop built (closesLoop_of_back built mem back) ns walk
  obtain ⟨pre, post, whole⟩ := List.append_of_mem through
  have around := walk.step step
  rw [whole] at around
  exact ⟨e.target, post, (Walk.split_iff.1 around).2⟩

/-- Passes evaluate all nodes after their sources just where there is no loop. -/
theorem forall_precedes_iff :
    (∀ m n, g.Feeds d m n → Precedes (g.visitOrder d) m n) ↔ s.loopDepth = 0 := by
  constructor
  · intro early
    by_contra loops
    have up : ∀ m n, g.Feeds d m n → (g.visitOrder d).idxOf m < (g.visitOrder d).idxOf n :=
      fun m n feeds => (early m n feeds).idxOf_lt nodup_visitOrder
    obtain ⟨n, ns, walk⟩ := exists_closed_walk built loops
    obtain ⟨ms, closed⟩ : ∃ ms, Walk (g.Feeds d) n (n :: ms) n := by
      cases d with
      | forward => exact ⟨ns, walk.mono fun _ _ => feeds_forward.2⟩
      | backward => exact ⟨ns.reverse, walk.reverse⟩
    exact Nat.lt_irrefl _ (closed.lt_of_steps up)
  · intro none m n feeds
    refine (precedes_or_retreats built feeds).resolve_right fun back => ?_
    have direct : Direct (g.Feeds d) m [] n :=
      ⟨Walk.single feeds, List.nodup_singleton _, List.nodup_singleton _⟩
    have laps : laps d.Retreats [m, n] ≤ s.loopDepth := laps_retreats_le built direct
    rw [laps_cons_cons, if_pos back, none] at laps
    exact absurd laps (Nat.not_succ_le_zero _)

end FlowGraph
end FlowAnalysis
