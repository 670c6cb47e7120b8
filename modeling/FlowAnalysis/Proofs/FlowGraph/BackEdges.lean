import FlowAnalysis.Proofs.FlowGraph.Nesting
import Mathlib.Tactic.TFAE

/-!
The back edges of programs' graphs. Main statement: the edges of the kind `back` are those that lead
against the order of the labels, those that lead to a node that dominates their source, and those
that lead to the test of a loop from its body; so the graphs are reducible.
-/
namespace FlowAnalysis
namespace FlowGraph

variable {s : Statement} {g : FlowGraph} {e : Edge EdgeKind} {m n t : Nat} {a b : Label}

/-- Every walk from the entry to node `n` comes through node `t`. -/
def Dominates (g : FlowGraph) (t n : Nat) : Prop := ∀ ns, Walk g.Step g.entry ns n → t ∈ ns ++ [n]

section Built

variable (built : build s = .ok g)
include built

/-- The labels of nodes are in the order of the nodes. -/
theorem label_lt (ha : g.label? m = some a) (hb : g.label? n = some b) (lt : m < n) : a < b := by
  rw [label?_eq, List.getElem?_eq_some_iff] at ha hb
  obtain ⟨hm, rfl⟩ := ha
  obtain ⟨hn, rfl⟩ := hb
  exact List.pairwise_iff_getElem.1 (pairwise_labels built) m n hm hn lt

/-- Nodes are dominated by earlier ones alone. -/
theorem Dominates.le (h : g.Dominates t n) (lt : n < g.nodeCount) : t ≤ n := by
  obtain ⟨-, ns, walk⟩ := participates_of_build built .forward lt
  obtain ⟨ms, direct, nodup, -⟩ := walk.exists_nodup
  have through := h ms direct
  obtain ⟨accepted, rfl⟩ := build_eq_ok.1 built
  exact le_of_nodup_walk accepted direct nodup through

/-- The test of a loop dominates the nodes of the loop. -/
theorem dominates_of_closesLoop (h : s.ClosesLoop n t) : g.Dominates t n := by
  obtain ⟨accepted, rfl⟩ := build_eq_ok.1 built
  have wired := wired_ofStatement accepted
  have outside : ¬ (0 ≤ s.size ∧ s.size < 0 + s.size) := by omega
  obtain ⟨e, mem, lt, inside⟩ := h
  have around : Statement.Around n (t, e) := ⟨Nat.le_of_lt lt, inside⟩
  intro ns walk
  by_cases start : Statement.Around 0 (t, e)
  · -- the loop's test is the entry, where the walk starts
    obtain rfl : t = 0 := Nat.le_zero.1 start.1
    exact walk.start_mem
  · obtain ⟨ms, m, c, rest, rfl, -, -, out, step, entered, onward⟩ :=
      walk.firstOutside (P := (¬ Statement.Around · (t, e))) start (not_not.2 around)
    have point := lt_of_step_ofStatement step
    have test : c = t := wired.test_of_entry outside mem (Nat.zero_le m) (by omega) step out
      (not_not.1 entered)
    rw [List.append_assoc]
    exact List.mem_append_right _ (test ▸ onward.start_mem)

theorem directed_of_build (he : e ∈ g.graph.edges) : Statement.Directed e := by
  obtain ⟨-, rfl⟩ := build_eq_ok.1 built
  have mem : e ∈ edgesOf s := List.mem_toArray.1 he
  rw [edgesOf, List.mem_append] at mem
  obtain within | out := mem
  · exact s.directed_edges 0 e within
  · refine Statement.directed_link (fun x hx => ?_) (s.exits_ne_back 0) e out
    have := s.exits_bounds 0 x hx
    omega

theorem closesLoop_of_back (he : e ∈ g.graph.edges) (back : e.data = .back) :
    s.ClosesLoop e.source e.target := by
  obtain ⟨-, lt⟩ := (directed_of_build built he).resolve_right fun onward => onward.1 back
  obtain ⟨accepted, rfl⟩ := build_eq_ok.1 built
  have step : (ofStatement s).Step e.source e.target :=
    Digraph.mem_successors.2 ⟨e, he, rfl, rfl⟩
  have point := lt_of_step_ofStatement step
  obtain ⟨f, mem, inside⟩ := (wired_ofStatement accepted).loop_of_back (by omega) step
    (Nat.zero_le _) (Nat.le_of_lt lt) (by omega)
  exact ⟨f, mem, lt, inside⟩

theorem isBackEdge_iff : g.isBackEdge a b = true ↔ ∃ e ∈ g.graph.edges,
    g.label? e.source = some a ∧ g.label? e.target = some b ∧ e.data = .back := by
  constructor
  · intro told
    rw [isBackEdge] at told
    split at told
    next m n hm hn =>
      obtain ⟨⟨k, kind⟩, mem, same⟩ := List.any_eq_true.1 told
      obtain ⟨e, he, rfl, rfl, rfl⟩ := Digraph.mem_outgoingEdges.1 mem
      rw [Bool.and_eq_true, beq_iff_eq, EdgeKind.isBack, beq_iff_eq] at same
      exact ⟨e, he, (find?_iff built).1 hm, same.1 ▸ (find?_iff built).1 hn, same.2⟩
    next => cases told
  · rintro ⟨e, he, source, target, back⟩
    rw [isBackEdge, (find?_iff built).2 source, (find?_iff built).2 target]
    refine List.any_eq_true.2
      ⟨(e.target, e.data), Digraph.mem_outgoingEdges.2 ⟨e, he, rfl, rfl, rfl⟩, ?_⟩
    simp [back, EdgeKind.isBack]

/-- Back edges are the edges that close loops, in each sense of the word, and `isBackEdge` tells
them. -/
theorem back_edges_close_loops :
    (∀ e ∈ g.graph.edges, ∃ a b, g.label? e.source = some a ∧ g.label? e.target = some b ∧
      [e.data = .back, b < a, b < a ∨ b = a, g.Dominates e.target e.source,
        s.ClosesLoop e.source e.target].TFAE) ∧
      ∀ a b, g.isBackEdge a b = true ↔ ∃ e ∈ g.graph.edges,
        g.label? e.source = some a ∧ g.label? e.target = some b ∧ e.data = .back := by
  refine ⟨fun e he => ?_, fun a b => isBackEdge_iff built⟩
  have labelled : ∀ {n}, n < g.nodeCount → ∃ l, g.label? n = some l := fun lt =>
    ⟨_, congrArg (Option.map Node.label) (Array.getElem?_eq_getElem lt)⟩
  have ends := g.graph.valid e he
  obtain ⟨a, source⟩ := labelled ends.1
  obtain ⟨b, target⟩ := labelled ends.2
  refine ⟨a, b, source, target, ?_⟩
  have directed := directed_of_build built he
  tfae_have 1 → 2 := by
    intro back
    obtain ⟨-, lt⟩ := directed.resolve_right fun onward => onward.1 back
    exact label_lt built target source lt
  tfae_have 2 → 3 := Or.inl
  tfae_have 3 → 1 := by
    intro le
    by_contra onward
    have lt := label_lt built source target (directed.resolve_left fun back => onward back.1).2
    cases le with
    | inl back => exact Label.lt_asymm lt back
    | inr same => exact Label.ne_of_lt lt same.symm
  tfae_have 1 → 5 := closesLoop_of_back built he
  tfae_have 5 → 4 := dominates_of_closesLoop built
  tfae_have 4 → 3 := by
    intro dominates
    obtain lt | same := Nat.lt_or_eq_of_le (dominates.le built ends.1)
    · exact Or.inl (label_lt built target source lt)
    · exact Or.inr (Option.some.inj (target.symm.trans (same ▸ source)))
  tfae_finish

end Built

theorem back_edges_close_loops_countdown :
    build .countdown = .ok (ofStatement .countdown) ∧
      ⟨2, 0, .back⟩ ∈ (ofStatement .countdown).graph.edges ∧
      (ofStatement .countdown).Dominates 0 2 ∧ Statement.countdown.ClosesLoop 2 0 ∧
      (ofStatement .countdown).isBackEdge (.stmt 3) (.stmt 1) = true := by
  obtain ⟨tfae, tells⟩ := back_edges_close_loops build_countdown
  have mem : ⟨2, 0, .back⟩ ∈ (ofStatement .countdown).graph.edges := by
    refine List.mem_toArray.2 (List.mem_append_left _ ?_)
    simp [Statement.countdown, Statement.edges, Statement.edgesAll, Statement.exits,
      Statement.exitsAll, Statement.linkBack, Statement.size]
  obtain ⟨a, b, -, -, all⟩ := tfae _ mem
  exact ⟨build_countdown, mem, (all.out 0 3).1 rfl, (all.out 0 4).1 rfl,
    (tells _ _).2 ⟨_, mem, rfl, rfl, rfl⟩⟩

end FlowGraph
end FlowAnalysis
