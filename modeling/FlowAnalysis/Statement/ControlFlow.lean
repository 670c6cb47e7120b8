import FlowAnalysis.Digraph
import FlowAnalysis.Node
import FlowAnalysis.Statement

/-!
Control flow within a statement whose points are numbered in program order. A statement that
starts at node `i` is entered at `i`; where control leaves it is listed with the kind of the edge
to come. Main statements: it is left at its own nodes, and no edge leads further than the node
after them.
-/
namespace FlowAnalysis
namespace Statement

mutual

/-- What the points do, in program order. -/
def actions : Statement → List Action
  | skip => [.skip]
  | assign x e => [.assign x e]
  | seq body => actionsAll body
  | loop c body => .test c :: body.actions
  | branch c t f => .test c :: (t.actions ++ f.actions)

def actionsAll : List Statement → List Action
  | [] => []
  | s :: rest => s.actions ++ actionsAll rest

end

mutual

/-- Where control leaves a statement that starts at node `i`, and by which kind of edge. -/
def exits (i : Nat) : Statement → List (Nat × EdgeKind)
  | skip => [(i, .sequential)]
  | assign _ _ => [(i, .sequential)]
  | seq body => exitsAll i body
  | loop _ _ => [(i, .whenFalse)]
  | branch _ t f => t.exits (i + 1) ++ f.exits (i + 1 + t.size)

/-- A sequence is left where its last member is. -/
def exitsAll (i : Nat) : List Statement → List (Nat × EdgeKind)
  | [] => []
  | [s] => s.exits i
  | s :: t :: rest => exitsAll (i + s.size) (t :: rest)

end

/-- Edges from the given nodes, of the given kinds, to `target`. -/
def link (sources : List (Nat × EdgeKind)) (target : Nat) : List (Edge EdgeKind) :=
  sources.map fun (n, kind) => ⟨n, target, kind⟩

/-- Edges from the given nodes back to the test of their loop. -/
def linkBack (sources : List (Nat × EdgeKind)) (test : Nat) : List (Edge EdgeKind) :=
  sources.map fun (n, _) => ⟨n, test, .back⟩

mutual

/-- The edges within a statement that starts at node `i`: those within its parts, then its own. -/
def edges (i : Nat) : Statement → List (Edge EdgeKind)
  | skip => []
  | assign _ _ => []
  | seq body => edgesAll i [] body
  | loop _ body =>
    body.edges (i + 1) ++ ⟨i, i + 1, .whenTrue⟩ :: linkBack (body.exits (i + 1)) i
  | branch _ t f =>
    t.edges (i + 1) ++ f.edges (i + 1 + t.size) ++
      [⟨i, i + 1, .whenTrue⟩, ⟨i, i + 1 + t.size, .whenFalse⟩]

/-- The edges within a sequence, and those into it from the nodes in `pending`. -/
def edgesAll (i : Nat) (pending : List (Nat × EdgeKind)) : List Statement → List (Edge EdgeKind)
  | [] => []
  | s :: rest => s.edges i ++ link pending i ++ edgesAll (i + s.size) (s.exits i) rest

end

mutual

@[simp] theorem length_actions (s : Statement) : s.actions.length = s.size := by
  cases s with
  | skip => rfl
  | assign x e => rfl
  | seq body => simpa [actions, size] using length_actionsAll body
  | loop c body => simpa [actions, size] using length_actions body
  | branch c t f => simp [actions, size, length_actions t, length_actions f]

@[simp] theorem length_actionsAll (body : List Statement) :
    (actionsAll body).length = sizeAll body := by
  cases body with
  | nil => rfl
  | cons s rest => simp [actionsAll, sizeAll, length_actions s, length_actionsAll rest]

end

mutual

/-- A statement is left at its own nodes. -/
theorem exits_bounds (s : Statement) (i : Nat) :
    ∀ x ∈ s.exits i, i ≤ x.1 ∧ x.1 < i + s.size := by
  cases s with
  | skip => simp [exits, size]
  | assign x e => simp [exits, size]
  | seq body => simpa [exits, size] using exitsAll_bounds body i
  | loop c body => simp [exits, size]
  | branch c t f =>
    intro x hx
    simp only [exits, List.mem_append] at hx
    simp only [size]
    rcases hx with hx | hx
    · have := exits_bounds t (i + 1) x hx
      omega
    · have := exits_bounds f (i + 1 + t.size) x hx
      omega

theorem exitsAll_bounds (body : List Statement) (i : Nat) :
    ∀ x ∈ exitsAll i body, i ≤ x.1 ∧ x.1 < i + sizeAll body := by
  match body with
  | [] => simp [exitsAll]
  | [s] => simpa [exitsAll, sizeAll] using exits_bounds s i
  | s :: t :: rest =>
    intro x hx
    have := exitsAll_bounds (t :: rest) (i + s.size) x (by simpa [exitsAll] using hx)
    simp only [sizeAll] at this ⊢
    omega

end

mutual

/-- The edges within a statement leave its own nodes, and lead no further than the node after. -/
theorem edges_bounds (s : Statement) (i : Nat) :
    ∀ e ∈ s.edges i, e.source < i + s.size ∧ e.target ≤ i + s.size := by
  cases s with
  | skip => simp [edges]
  | assign x e => simp [edges]
  | seq body => simpa [edges, size] using edgesAll_bounds body i [] (by simp)
  | loop c body =>
    intro e he
    simp only [edges, linkBack, List.mem_append, List.mem_cons, List.mem_map] at he
    simp only [size]
    rcases he with he | rfl | ⟨x, hx, rfl⟩
    · have := edges_bounds body (i + 1) e he
      omega
    · simp only
      omega
    · have := exits_bounds body (i + 1) x hx
      simp only
      omega
  | branch c t f =>
    intro e he
    simp only [edges, List.mem_append, List.mem_cons, List.not_mem_nil, or_false] at he
    simp only [size]
    rcases he with (he | he) | rfl | rfl
    · have := edges_bounds t (i + 1) e he
      omega
    · have := edges_bounds f (i + 1 + t.size) e he
      omega
    · simp only
      omega
    · simp only
      omega

theorem edgesAll_bounds (body : List Statement) (i : Nat) (pending : List (Nat × EdgeKind))
    (before : ∀ x ∈ pending, x.1 < i) :
    ∀ e ∈ edgesAll i pending body, e.source < i + sizeAll body ∧ e.target ≤ i + sizeAll body := by
  cases body with
  | nil => simp [edgesAll]
  | cons s rest =>
    intro e he
    simp only [edgesAll, link, List.mem_append, List.mem_map] at he
    simp only [sizeAll]
    rcases he with (he | ⟨x, hx, rfl⟩) | he
    · have := edges_bounds s i e he
      omega
    · have := before x hx
      simp only
      omega
    · have := edgesAll_bounds rest (i + s.size) (s.exits i)
        (fun x hx => (exits_bounds s i x hx).2) e he
      omega

end

end Statement

end FlowAnalysis
