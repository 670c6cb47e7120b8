import FlowAnalysis.FlowGraph
import FlowAnalysis.Statement.ControlFlow
import FlowAnalysis.Statement.Issue

/-!
The control flow graph of a program: its points are labelled in program order from one, point `n`
is node `n - 1`, and the exit follows.
-/
namespace FlowAnalysis
namespace FlowGraph

/-- The points of `s` under their labels, and the exit. -/
def nodesOf (s : Statement) : List Node :=
  s.actions.mapIdx (fun i a => ⟨.stmt (i + 1), a⟩) ++ [⟨.exit, .exit⟩]

/-- The edges within `s`, and those from it to the exit. -/
def edgesOf (s : Statement) : List (Edge EdgeKind) :=
  s.edges 0 ++ Statement.link (s.exits 0) s.size

@[simp] theorem length_nodesOf (s : Statement) : (nodesOf s).length = s.size + 1 := by
  simp [nodesOf]

theorem edgesOf_bounds (s : Statement) :
    ∀ e ∈ edgesOf s, e.source < s.size + 1 ∧ e.target < s.size + 1 := by
  intro e he
  simp only [edgesOf, Statement.link, List.mem_append, List.mem_map] at he
  rcases he with he | ⟨x, hx, rfl⟩
  · have := s.edges_bounds 0 e he
    omega
  · have := s.exits_bounds 0 x hx
    simp only
    omega

/-- The control flow graph of `s`, entered at the first point. -/
def ofStatement (s : Statement) : FlowGraph where
  graph := .ofEdges (nodesOf s).toArray (edgesOf s).toArray (by simpa using edgesOf_bounds s)
  entry := 0
  exit := s.size
  exit_lt := by simp [Digraph.nodeCount, Digraph.ofEdges]

/-- The control flow graph of a program without issues; otherwise its first issue. -/
def build (s : Statement) : Except Issue FlowGraph :=
  match s.issues .sequence with
  | [] => .ok (ofStatement s)
  | issue :: _ => .error issue

end FlowGraph
end FlowAnalysis
