import FlowAnalysis.Proofs.Digraph.SearchEdges
import FlowAnalysis.Proofs.FlowGraph.OutEdges

/-!
The edges that a graph lists. Main statement: a search from any node lists the edges from what the
node reaches, and the search from a program's entry lists all edges of its graph, none of them
twice.
-/
namespace FlowAnalysis
namespace FlowGraph

variable {s : Statement} {g : FlowGraph} {a b : Nat}

/-- The labels of the ends of an edge. -/
def labelled (g : FlowGraph) (ends : Nat × Nat) : Option (Label × Label) :=
  return (← g.label? ends.1, ← g.label? ends.2)

theorem map_edgesWithKind : g.edgesWithKind.map (fun (a, b, _) => (a, b)) =
    (g.graph.edges.toList.map fun e => (e.source, e.target)).filterMap g.labelled := by
  rw [edgesWithKind, List.map_filterMap, List.filterMap_map]
  refine List.filterMap_congr fun e _ => ?_
  simp only [labelled, Function.comp_apply]
  cases g.label? e.source with
  | none => rfl
  | some l => cases g.label? e.target <;> rfl

section Built

variable (built : build s = .ok g)
include built

theorem mem_reachable_of_build {n : Nat} (lt : n < g.nodeCount) :
    n ∈ g.graph.reachableFrom g.entry := by
  have part := participates_of_build built .forward lt
  exact Digraph.mem_reachableFrom.2 part

theorem searchEdges_perm : (g.graph.searchEdges g.entry).Perm
    (g.graph.edges.toList.map fun e => (e.source, e.target)) := by
  have all : g.graph.edges.toList.filter (·.source ∈ g.graph.reachableFrom g.entry) =
      g.graph.edges.toList := by
    refine List.filter_eq_self.2 fun e he => decide_eq_true (mem_reachable_of_build built ?_)
    exact (g.graph.valid e (Array.mem_toList_iff.1 he)).1
  have perm := (g.graph.lists_searchEdges g.entry).perm
  rwa [all] at perm

theorem edges_perm : g.edges.Perm (g.edgesWithKind.map fun (a, b, _) => (a, b)) := by
  rw [map_edgesWithKind]
  exact (searchEdges_perm built).filterMap g.labelled

theorem label?_injective {m n : Nat} {l : Label} (hm : g.label? m = some l)
    (hn : g.label? n = some l) : m = n := by
  obtain ⟨a, at_m, rfl⟩ := Option.map_eq_some_iff.1 hm
  obtain ⟨b, at_n, same⟩ := Option.map_eq_some_iff.1 hn
  exact label_injective built at_m at_n same.symm

theorem labelled_injective {p q : Nat × Nat} {l : Label × Label} (hp : g.labelled p = some l)
    (hq : g.labelled q = some l) : p = q := by
  have ends : ∀ {r : Nat × Nat}, g.labelled r = some l →
      g.label? r.1 = some l.1 ∧ g.label? r.2 = some l.2 := by
    intro r hr
    obtain ⟨a, source, hr⟩ := Option.bind_eq_some_iff.1 hr
    obtain ⟨b, target, hr⟩ := Option.bind_eq_some_iff.1 hr
    obtain rfl := Option.some.inj hr
    exact ⟨source, target⟩
  exact Prod.ext (label?_injective built (ends hp).1 (ends hq).1)
    (label?_injective built (ends hp).2 (ends hq).2)

theorem nodup_edges : g.edges.Nodup := by
  rw [(edges_perm built).nodup_iff, map_edgesWithKind]
  refine List.Nodup.filterMap (fun _ _ _ => labelled_injective built) ?_
  refine Statement.nodup_map_ends fun n => ?_
  rw [← outgoingEdges_eq_outEdges]
  exact nodup_targets built n

end Built

/-- A depth-first search from any node of any graph lists the edges from the nodes to which walks
lead from there, and from what is no node it lists none. The edges of a program's graph by label are
those with kinds, none of them twice. -/
theorem searchEdges_complete :
    (∀ {N E : Type} (g : Digraph N E) (start : Nat),
      (∀ n, n ∈ g.reachableFrom start ↔ n < g.nodeCount ∧ ∃ ns, Walk g.Step start ns n) ∧
        g.Lists start (g.searchEdges start) ∧
        (g.nodeCount ≤ start → g.searchEdges start = [])) ∧
      ∀ {s g}, build s = .ok g →
        g.edges.Perm (g.edgesWithKind.map fun (a, b, _) => (a, b)) ∧ g.edges.Nodup ∧
          ∀ a b kind, (a, b, kind) ∈ g.edgesWithKind → g.edges.count (a, b) = 1 := by
  refine ⟨fun g start => ⟨fun n => Digraph.mem_reachableFrom, g.lists_searchEdges start,
    Digraph.searchEdges_of_le⟩, fun {s g} built => ⟨edges_perm built, nodup_edges built, ?_⟩⟩
  intro a b kind mem
  have listed : (a, b) ∈ g.edges := (edges_perm built).mem_iff.2 (List.mem_map.2 ⟨_, mem, rfl⟩)
  exact List.count_eq_one_of_mem (nodup_edges built) listed

/-- The edge out of the loop is the last that the search comes by. -/
example : (ofStatement .countdown).graph.searchEdges 0 = [(0, 1), (1, 2), (2, 0), (0, 3)] := by cbv

/-- The loop's four edges are listed from its test on, and none from beyond the exit. -/
theorem searchEdges_complete_countdown :
    build .countdown = .ok (ofStatement .countdown) ∧
      (ofStatement .countdown).edges.Nodup ∧
      (ofStatement .countdown).edges.count (.stmt 3, .stmt 1) = 1 ∧
      (ofStatement .countdown).graph.searchEdges 4 = [] := by
  obtain ⟨-, nodup, once⟩ := searchEdges_complete.2 build_countdown
  have none := (searchEdges_complete.1 (ofStatement .countdown).graph 4).2.2
  exact ⟨build_countdown, nodup, once _ _ .back (by decide), none (by decide)⟩

end FlowGraph
end FlowAnalysis
