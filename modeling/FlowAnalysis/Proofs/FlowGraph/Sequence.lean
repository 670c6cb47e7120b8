import FlowAnalysis.Proofs.FlowGraph.Built

/-!
The graph of one program after another. Main statements: its points are those of the first program
and then those of the second; its steps are those of the first graph, whose exit is now where the
second one starts, and those of the second graph, moved past the points of the first.
-/
namespace FlowAnalysis

/-- The edge between the nodes that come `k` later. -/
def Edge.shift {E : Type} (k : Nat) (e : Edge E) : Edge E := ⟨k + e.source, k + e.target, e.data⟩

namespace Statement

/-- Exits at the nodes that come `k` later. -/
def shiftExits (k : Nat) (xs : List (Nat × EdgeKind)) : List (Nat × EdgeKind) :=
  xs.map fun x => (k + x.1, x.2)

variable {xs : List (Nat × EdgeKind)} {k a b : Nat}

theorem link_shift {target : Nat} :
    link (shiftExits k xs) (k + target) = (link xs target).map (Edge.shift k) := by
  simp [link, shiftExits, Edge.shift]

theorem linkBack_shift {test : Nat} :
    linkBack (shiftExits k xs) (k + test) = (linkBack xs test).map (Edge.shift k) := by
  simp [linkBack, shiftExits, Edge.shift]

mutual

theorem exits_shift (s : Statement) (k i : Nat) : s.exits (k + i) = shiftExits k (s.exits i) := by
  cases s with
  | skip => rfl
  | assign x e => rfl
  | seq body => exact exitsAll_shift body k i
  | loop c body => rfl
  | branch c t f =>
    have yes := exits_shift t k (i + 1)
    have no := exits_shift f k (i + 1 + t.size)
    simp only [← Nat.add_assoc] at yes no
    rw [exits, exits, yes, no, shiftExits, shiftExits, shiftExits, List.map_append]

theorem exitsAll_shift (body : List Statement) (k i : Nat) :
    exitsAll (k + i) body = shiftExits k (exitsAll i body) := by
  match body with
  | [] => rfl
  | [s] => exact exits_shift s k i
  | s :: t :: rest =>
    have others := exitsAll_shift (t :: rest) k (i + s.size)
    rw [← Nat.add_assoc] at others
    rw [exitsAll, exitsAll, others]

end

mutual

/-- Where a statement starts later, its edges do. -/
theorem edges_shift (s : Statement) (k i : Nat) :
    s.edges (k + i) = (s.edges i).map (Edge.shift k) := by
  cases s with
  | skip => rfl
  | assign x e => rfl
  | seq body => exact edgesAll_shift body k i []
  | loop c body =>
    have inner := edges_shift body k (i + 1)
    have out := exits_shift body k (i + 1)
    rw [← Nat.add_assoc] at inner out
    rw [edges, edges, inner, out, linkBack_shift, List.map_append, List.map_cons]
    rfl
  | branch c t f =>
    have yes := edges_shift t k (i + 1)
    have no := edges_shift f k (i + 1 + t.size)
    simp only [← Nat.add_assoc] at yes no
    rw [edges, edges, yes, no, List.map_append, List.map_append]
    simp only [List.map_cons, List.map_nil, Edge.shift, Nat.add_assoc]

theorem edgesAll_shift (body : List Statement) (k i : Nat) (pending : List (Nat × EdgeKind)) :
    edgesAll (k + i) (shiftExits k pending) body =
      (edgesAll i pending body).map (Edge.shift k) := by
  cases body with
  | nil => rfl
  | cons s rest =>
    have others := edgesAll_shift rest k (i + s.size) (s.exits i)
    rw [← Nat.add_assoc] at others
    rw [edgesAll, edgesAll, edges_shift, exits_shift, link_shift, others, List.map_append,
      List.map_append]

end

theorem leads_map_shift {es : List (Edge EdgeKind)} : Leads (es.map (Edge.shift k)) a b ↔
    ∃ a' b', a = k + a' ∧ b = k + b' ∧ Leads es a' b' := by
  simp only [Leads, List.mem_map]
  constructor
  · rintro ⟨_, ⟨e, he, rfl⟩, rfl, rfl⟩
    exact ⟨e.source, e.target, rfl, rfl, e, he, rfl, rfl⟩
  · rintro ⟨_, _, rfl, rfl, e, he, rfl, rfl⟩
    exact ⟨_, ⟨e, he, rfl⟩, rfl, rfl⟩

end Statement

namespace FlowGraph

variable {s t : Statement} {a b n : Nat}

/-- The program that does `s` and then `t`. -/
theorem size_seq : (Statement.seq [s, t]).size = s.size + t.size := by
  simp [Statement.size, Statement.sizeAll]

theorem edgesOf_seq : edgesOf (.seq [s, t]) = s.edges 0 ++ t.edges s.size ++
    Statement.link (s.exits 0) s.size ++ Statement.link (t.exits s.size) (s.size + t.size) := by
  simp [edgesOf, Statement.edges, Statement.edgesAll, Statement.link, Statement.exits,
    Statement.exitsAll, size_seq]

theorem step_seq : (ofStatement (.seq [s, t])).Step a b ↔ (ofStatement s).Step a b ∨
    ∃ a' b', a = s.size + a' ∧ b = s.size + b' ∧ (ofStatement t).Step a' b' := by
  have moved : t.edges s.size ++ Statement.link (t.exits s.size) (s.size + t.size) =
      (edgesOf t).map (Edge.shift s.size) := by
    have edges := t.edges_shift s.size 0
    have exits := t.exits_shift s.size 0
    rw [Nat.add_zero] at edges exits
    rw [edges, exits, Statement.link_shift, edgesOf, List.map_append]
  simp only [step_ofStatement]
  rw [← Statement.leads_map_shift, ← moved, edgesOf_seq, edgesOf]
  simp only [Statement.leads_append]
  tauto

theorem label?_eq_some_iff {g : FlowGraph} {l : Label} :
    g.label? n = some l ↔ ∃ node, g.node? n = some node ∧ node.label = l := by
  rw [label?, Option.map_eq_some_iff]

theorem node?_ofStatement : (ofStatement s).node? n = (nodesOf s)[n]? := by
  simp [ofStatement, node?, Digraph.ofEdges]

theorem map_action_nodesOf : (nodesOf s).map (·.action) = s.actions ++ [.exit] := by
  rw [nodesOf, List.map_append]
  congr 1
  exact List.ext_getElem (by simp) (by simp)

theorem action_ofStatement :
    ((ofStatement s).node? n).map (·.action) = (s.actions ++ [.exit])[n]? := by
  rw [node?_ofStatement, ← List.getElem?_map, map_action_nodesOf]

theorem nodesOf_seq : nodesOf (.seq [s, t]) =
    s.actions.mapIdx (fun i a => ⟨.stmt (i + 1), a⟩) ++
      (t.actions.mapIdx (fun i a => ⟨.stmt (i + s.size + 1), a⟩) ++ [⟨.exit, .exit⟩]) := by
  simp [nodesOf, Statement.actions, Statement.actionsAll, List.mapIdx_append]

theorem node?_seq_first (lt : n < s.size) :
    (ofStatement (.seq [s, t])).node? n = (ofStatement s).node? n := by
  have inside : n < (s.actions.mapIdx fun i a => (⟨.stmt (i + 1), a⟩ : Node)).length := by
    simpa using lt
  rw [node?_ofStatement, node?_ofStatement, nodesOf_seq, nodesOf,
    List.getElem?_append_left inside, List.getElem?_append_left inside]

theorem action_seq_second : ((ofStatement (.seq [s, t])).node? (s.size + n)).map (·.action) =
    ((ofStatement t).node? n).map (·.action) := by
  rw [action_ofStatement, action_ofStatement]
  simp [Statement.actions, Statement.actionsAll, List.getElem?_append_right]

end FlowGraph
end FlowAnalysis
