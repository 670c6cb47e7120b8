import FlowAnalysis.Proofs.Digraph.Postorder
import FlowAnalysis.Proofs.DirectWalk
import FlowAnalysis.Proofs.FlowGraph.Built
import FlowAnalysis.Proofs.Statement.Loops

/-!
Loops in the graphs of programs. Main statements: the visiting order of a program's graph follows
facts along every edge that closes no loop, and direct walks close no more loops than the program
nests.
-/
namespace FlowAnalysis

/-- A step of flow between nodes of a program that goes back to the test of a loop, or comes from
it, as facts flow with control or against it. -/
def Direction.Retreats : Direction → Nat → Nat → Prop
  | .forward, a, b => b ≤ a
  | .backward, a, b => a ≤ b

instance (d : Direction) : DecidableRel d.Retreats := fun a b =>
  match d with
  | .forward => inferInstanceAs (Decidable (b ≤ a))
  | .backward => inferInstanceAs (Decidable (a ≤ b))

namespace FlowGraph

variable {s : Statement} {g : FlowGraph} {d : Direction} {a b t x y : Nat} {mid ns : List Nat}

section Accepted

variable (accepted : s.issues .sequence = [])
include accepted

/-- A direct walk that steps back starts in the loop to whose test it steps. -/
theorem around_of_back (h : Direct (ofStatement s).Step a mid b)
    (stride : (x, t) ∈ strides (a :: mid ++ [b])) (back : t ≤ x) :
    ∃ e, (t, e) ∈ s.loops 0 ∧ Statement.Around a (t, e) := by
  have wired := wired_ofStatement accepted
  have outside : ¬ (0 ≤ s.size ∧ s.size < 0 + s.size) := by omega
  obtain ⟨pre, post, whole⟩ := exists_of_mem_strides stride
  have step := (h.walk.of_stride whole).2
  have lt := lt_of_step_ofStatement step
  obtain ⟨e, mem, inside⟩ := wired.loop_of_back outside step (Nat.zero_le t) back (by omega)
  refine ⟨e, mem, h.start_of_return (P := (Statement.Around · (t, e))) ?_ stride ⟨back, inside⟩⟩
  intro u v next out entered
  have lt := lt_of_step_ofStatement next
  exact wired.test_of_entry outside mem (Nat.zero_le u) (by omega) next out entered

theorem laps_step_le (h : Direct (ofStatement s).Step a mid b) :
    laps (fun x y => y ≤ x) (a :: mid ++ [b]) ≤ s.loopDepth := by
  have tests : laps (fun x y => y ≤ x) (a :: mid ++ [b]) ≤
      (((s.loops 0).filter fun l => Statement.Around a l).map Prod.fst).length := by
    refine h.laps_le fun x t stride back => ?_
    obtain ⟨e, mem, around⟩ := around_of_back accepted h stride back
    exact List.mem_map_of_mem (f := Prod.fst) (List.mem_filter.2 ⟨mem, decide_eq_true around⟩)
  rw [List.length_map, ← List.countP_eq_length_filter] at tests
  exact Nat.le_trans tests (s.countP_around_le 0 a)

/-- A walk from the entry that takes no node twice ascends. -/
theorem le_of_nodup_walk (walk : Walk (ofStatement s).Step 0 ns x) (nodup : (ns ++ [x]).Nodup)
    (hy : y ∈ ns ++ [x]) : y ≤ x := by
  cases ns with
  | nil => exact Nat.le_of_eq (List.mem_singleton.1 hy)
  | cons n mid =>
    obtain ⟨rfl, -⟩ := Walk.cons_iff.1 walk
    have ascending : (0 :: mid ++ [x]).Pairwise (· < ·) := by
      refine pairwise_of_strides fun m k stride => Nat.lt_of_not_le fun back => ?_
      -- a step back would lead to the entry, where the walk starts
      obtain ⟨e, -, around⟩ := around_of_back accepted (direct_of_nodup walk nodup) stride back
      obtain rfl : k = 0 := Nat.le_zero.1 around.1
      have again := List.mem_map_of_mem (f := Prod.snd) stride
      rw [List.cons_append, map_snd_strides] at again
      exact (List.nodup_cons.1 nodup).1 again
    obtain hy | hy := List.mem_append.1 hy
    · exact Nat.le_of_lt ((List.pairwise_append.1 ascending).2.2 y hy x List.mem_cons_self)
    · exact Nat.le_of_eq (List.mem_singleton.1 hy)

end Accepted

section Built

variable (built : build s = .ok g)
include built

theorem mem_postorder_of_build (lt : a < g.nodeCount) : a ∈ g.postorder :=
  Digraph.mem_postorder_iff.2 (participates_of_build built .forward lt)

theorem visitOrder_eq_walk : g.visitOrder d = g.walk d := by
  have mem : ∀ n < g.nodeCount, n ∈ g.walk d := fun n lt => by
    have := mem_postorder_of_build built lt
    cases d with
    | forward => exact List.mem_reverse.2 this
    | backward => exact this
  have below : ∀ n ∈ g.walk d, n < g.nodeCount := fun n hn => by
    have finished : n ∈ g.postorder := by
      cases d with
      | forward => exact List.mem_reverse.1 hn
      | backward => exact hn
    exact (Digraph.mem_postorder_iff.1 finished).1
  have nodup : (g.walk d).Nodup := by
    have := Digraph.nodup_postorder g.graph g.entry
    cases d with
    | forward => exact List.nodup_reverse.2 this
    | backward => exact this
  have all : (g.walk d ++ g.nodeIds).filter (· ∈ g.participants d) = g.walk d ++ g.nodeIds := by
    refine List.filter_eq_self.2 fun n hn => decide_eq_true (mem_participants.2 ?_)
    exact participates_of_build built d ((List.mem_append.1 hn).elim (below n) mem_nodeIds.1)
  have none : g.nodeIds.removeAll (g.walk d) = [] := by
    refine List.filter_eq_nil_iff.2 fun n hn => ?_
    simpa using mem n (mem_nodeIds.1 hn)
  rw [visitOrder, all, List.eraseDups_append, none, eraseDups_of_nodup nodup]
  exact List.append_nil _

/-- Facts flow along the visiting order, except where they go round a loop. -/
theorem precedes_or_retreats (feeds : g.Feeds d a b) :
    Precedes (g.visitOrder d) a b ∨ d.Retreats a b := by
  -- an edge that leads on finishes its source after its target
  have onward : ∀ {a b}, g.Step a b → a < b → Precedes g.postorder b a := by
    intro a b step lt
    have ha := mem_postorder_of_build built (Digraph.Step.source_lt step)
    refine (Digraph.precedes_postorder ha step).resolve_right ?_
    rintro ⟨ns, walk, nodup, mem⟩
    obtain ⟨accepted, rfl⟩ := build_eq_ok.1 built
    exact absurd (le_of_nodup_walk accepted walk nodup mem) (Nat.not_le_of_lt lt)
  rw [visitOrder_eq_walk built]
  cases d with
  | forward =>
    by_cases back : b ≤ a
    · exact Or.inr back
    · exact Or.inl (onward (feeds_forward.1 feeds) (Nat.lt_of_not_le back)).reverse
  | backward =>
    by_cases back : a ≤ b
    · exact Or.inr back
    · exact Or.inl (onward feeds (Nat.lt_of_not_le back))

/-- A direct walk of facts goes round no more loops than the program nests. -/
theorem laps_retreats_le (h : Direct (g.Feeds d) a mid b) :
    laps d.Retreats (a :: mid ++ [b]) ≤ s.loopDepth := by
  obtain ⟨accepted, rfl⟩ := build_eq_ok.1 built
  cases d with
  | forward => exact laps_step_le accepted (h.mono fun _ _ => feeds_forward.1)
  | backward =>
    have reversed : laps (fun x y => Direction.backward.Retreats y x) (b :: mid.reverse ++ [a]) ≤
        s.loopDepth := laps_step_le accepted h.reverse
    rw [← laps_reverse]
    simpa using reversed

end Built

end FlowGraph
end FlowAnalysis
