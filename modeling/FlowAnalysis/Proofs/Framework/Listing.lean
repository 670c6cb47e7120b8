import FlowAnalysis.Framework
import FlowAnalysis.Proofs.FirstOccurrence
import FlowAnalysis.Proofs.FlowWalk

/-!
The listing of the nodes to visit. Main statement: a walk over nodes with a flag for those that are
listed already lists every participant once, in the visiting order.
-/
namespace FlowAnalysis

variable {g : FlowGraph} {d : Direction} {present : BitSet} {ns : List Nat} {n : Nat}

/-- The listing `l` has those of `ns` that are present, each with what the graph has there. -/
structure Listing.Lists (g : FlowGraph) (present : BitSet) (ns : List Nat) (l : Listing) : Prop where
  flags : ∀ n < g.nodeCount, l.flags[n]? = some (decide (n ∈ ns.filter (· ∈ present)))
  nodes : l.nodes =
    (ns.filter (· ∈ present)).eraseDups.filterMap fun n => (n, ·) <$> g.node? n

theorem Listing.Lists.visit {l : Listing} (bounded : ∀ n ∈ present, n < g.nodeCount)
    (h : Lists g present ns l) : Lists g present (ns ++ [n]) (l.visit g present n) := by
  unfold Listing.visit
  by_cases here : n ∈ present
  · have lt := bounded n here
    have more : (ns ++ [n]).filter (· ∈ present) = ns.filter (· ∈ present) ++ [n] := by
      rw [List.filter_append, List.filter_cons_of_pos (by simpa using here), List.filter_nil]
    by_cases old : n ∈ ns.filter (· ∈ present)
    · have listed : ¬ (n ∈ present ∧ l.flags[n]? = some false) := by
        rw [h.flags n lt, decide_eq_true old]
        simp
      rw [if_neg listed]
      refine ⟨fun m hm => ?_, ?_⟩
      · rw [h.flags m hm, more, Option.some_inj, decide_eq_decide, List.mem_append,
          List.mem_singleton]
        exact ⟨Or.inl, fun mem => mem.elim id fun same => same ▸ old⟩
      · rw [h.nodes, more, eraseDups_concat, if_pos old]
    · have fresh : n ∈ present ∧ l.flags[n]? = some false := by
        refine ⟨here, ?_⟩
        rw [h.flags n lt, decide_eq_false old]
      have size : n < l.flags.size := (Array.getElem?_eq_some_iff.1 fresh.2).1
      rw [if_pos fresh]
      refine ⟨fun m hm => ?_, ?_⟩
      · rw [Array.getElem?_setIfInBounds, more]
        by_cases same : n = m
        · rw [if_pos same, if_pos size, ← same]
          simp
        · rw [if_neg same, h.flags m hm, Option.some_inj, decide_eq_decide, List.mem_append,
            List.mem_singleton]
          exact ⟨Or.inl, fun mem => mem.resolve_right fun eq => same eq.symm⟩
      · rw [h.nodes, more, eraseDups_concat, if_neg old, List.filterMap_append]
        cases found : g.node? n <;> simp [found]
  · have absent : (ns ++ [n]).filter (· ∈ present) = ns.filter (· ∈ present) := by
      rw [List.filter_append, List.filter_cons_of_neg (by simpa using here), List.filter_nil,
        List.append_nil]
    rw [if_neg fun both => here both.1]
    exact ⟨fun m hm => absent ▸ h.flags m hm, absent ▸ h.nodes⟩

theorem Listing.lists_foldl (bounded : ∀ n ∈ present, n < g.nodeCount) (ns : List Nat) :
    Lists g present ns (ns.foldl (Listing.visit g present)
      ⟨Array.replicate g.nodeCount false, []⟩) := by
  induction ns using List.reverseRecOn with
  | nil => exact ⟨fun n hn => by simp [hn], rfl⟩
  | append_singleton ns n ih =>
    rw [List.foldl_append]
    exact ih.visit bounded

/-- The listing is the visiting order, with what the graph has at each node. -/
theorem FlowGraph.nodes_listing : (g.listing d).nodes =
    (g.visitOrder d).filterMap fun n => (n, ·) <$> g.node? n :=
  (Listing.lists_foldl (fun _ mem => (participates_iff.1 (mem_participants.1 mem)).1) _).nodes

theorem FlowGraph.map_fst_filterMap_node? (valid : ∀ n ∈ ns, n < g.nodeCount) :
    (ns.filterMap fun n => (n, ·) <$> g.node? n).map Prod.fst = ns := by
  rw [List.map_filterMap]
  refine (List.filterMap_congr fun n mem => ?_).trans List.filterMap_some
  have lt : n < g.graph.nodes.size := valid n mem
  rw [node?, Array.getElem?_eq_getElem lt]
  rfl

theorem FlowGraph.map_fst_listing : (g.listing d).nodes.map Prod.fst = g.visitOrder d := by
  rw [nodes_listing, map_fst_filterMap_node? fun n => lt_of_mem_visitOrder]

theorem FlowGraph.node?_of_mem_listing {e : Nat × Node} (mem : e ∈ (g.listing d).nodes) :
    g.node? e.1 = some e.2 := by
  rw [nodes_listing, List.mem_filterMap] at mem
  obtain ⟨n, -, found⟩ := mem
  obtain ⟨node, there, rfl⟩ := Option.map_eq_some_iff.1 found
  exact there

end FlowAnalysis
