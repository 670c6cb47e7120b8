import FlowAnalysis.FlowGraph.Construction
import FlowAnalysis.Proofs.FlowGraph.Built
import FlowAnalysis.Proofs.Statement.Offence

/-!
Constructions step by step. Main statement: with labels enough a construction fails only for an
issue of the program, the first one, and otherwise makes the graph of the program.
-/
namespace FlowAnalysis

/-- Nodes and edges determine a graph. -/
theorem Digraph.eq_of_nodes_edges {N E : Type} {g h : Digraph N E} (nodes : g.nodes = h.nodes)
    (edges : g.edges = h.edges) : g = h := by
  have outgoing : g.outgoing = h.outgoing := by
    apply Array.ext
    · rw [g.size_outgoing, h.size_outgoing, nodes]
    · intro n lt lt'
      rw [g.outgoing_eq, h.outgoing_eq, edges]
  have incoming : g.incoming = h.incoming := by
    apply Array.ext
    · rw [g.size_incoming, h.size_incoming, nodes]
    · intro n lt lt'
      rw [g.incoming_eq, h.incoming_eq, edges]
  cases g
  cases h
  simp only at nodes edges outgoing incoming
  simp only [nodes, edges, outgoing, incoming]

namespace Construction

variable {α β : Type} {c c' c'' : Construction} {issues others : List Issue}

/-- From `c` the stage stops at the first of the issues; where there is none, it ends as `post`
says. -/
def Yields (m : Stage α) (c : Construction) (post : α → Construction → Prop) :
    List Issue → Prop
  | [] => ∃ a c', m c = .ok (a, c') ∧ post a c'
  | i :: _ => m c = .error (.issue i)

namespace Yields

variable {m : Stage α} {f : α → Stage β} {post : α → Construction → Prop}
  {post' : β → Construction → Prop}

/-- Another stage goes on where a stage without issues ends. -/
theorem bind (first : Yields m c post issues)
    (next : issues = [] → ∀ a c', post a c' → Yields (f a) c' post' others) :
    Yields (m >>= f) c post' (issues ++ others) := by
  cases issues with
  | nil =>
    obtain ⟨a, c', ran, holds⟩ := first
    have goesOn : (m >>= f) c = f a c' := by
      change (m c >>= fun p => f p.1 p.2) = _
      rw [ran]
      rfl
    have next := next rfl a c' holds
    cases others with
    | nil =>
      obtain ⟨b, c'', ran', holds'⟩ := next
      exact ⟨b, c'', goesOn.trans ran', holds'⟩
    | cons i rest => exact goesOn.trans next
  | cons i rest =>
    change (m c >>= fun p => f p.1 p.2) = _
    rw [show m c = .error (.issue i) from first]
    rfl

theorem andThen (first : Yields m c post [])
    (next : ∀ a c', post a c' → Yields (f a) c' post' others) :
    Yields (m >>= f) c post' others :=
  first.bind fun _ => next

theorem imp {post' : α → Construction → Prop} (h : Yields m c post issues)
    (weaker : ∀ a c', post a c' → post' a c') : Yields m c post' issues := by
  cases issues with
  | nil =>
    obtain ⟨a, c', ran, holds⟩ := h
    exact ⟨a, c', ran, weaker a c' holds⟩
  | cons i rest => exact h

theorem pure {a : α} (holds : post a c) : Yields (pure a : Stage α) c post [] :=
  ⟨a, c, rfl, holds⟩

end Yields

/-- The nodes of points that come after `n` others. -/
def points (n : Nat) (actions : List Action) : List Node :=
  actions.mapIdx fun i a => ⟨.stmt (n + i + 1), a⟩

theorem points_append {n : Nat} {as bs : List Action} :
    points n (as ++ bs) = points n as ++ points (n + as.length) bs := by
  simp only [points, List.mapIdx_append, Nat.add_assoc, Nat.add_comm, Nat.add_left_comm]

/-- The points and edges that were added on the way from `c` to `c'`. -/
structure Adds (c c' : Construction) (actions : List Action) (edges : List (Edge EdgeKind)) :
    Prop where
  nodes : c'.graph.nodes.toList = c.graph.nodes.toList ++ points c.issued actions
  edges : c'.graph.edges.toList = c.graph.edges.toList ++ edges
  issued : c'.issued = c.issued + actions.length

namespace Adds

variable {as bs : List Action} {es fs : List (Edge EdgeKind)}

theorem refl : Adds c c [] [] := ⟨by simp [points], by simp, rfl⟩

theorem trans (h : Adds c c' as es) (h' : Adds c' c'' bs fs) :
    Adds c c'' (as ++ bs) (es ++ fs) := by
  refine ⟨?_, ?_, ?_⟩
  · rw [h'.nodes, h.nodes, h.issued, points_append, List.append_assoc]
  · rw [h'.edges, h.edges, List.append_assoc]
  · rw [h'.issued, h.issued, List.length_append, Nat.add_assoc]

theorem nodeCount_eq (h : Adds c c' as es) :
    c'.graph.nodeCount = c.graph.nodeCount + as.length := by
  have := congrArg List.length h.nodes
  simpa [Digraph.nodeCount, points] using this

end Adds

theorem yields_check {i? : Option Issue} {m : Stage α} {post : α → Construction → Prop}
    (next : Yields m c post others) :
    Yields (check i? >>= fun _ => m) c post (i?.toList ++ others) := by
  cases i? with
  | none => exact next
  | some i => rfl

/-- So far `n` points are placed. -/
structure Holds (c : Construction) (n : Nat) : Prop where
  count : c.graph.nodeCount = n
  issued : c.issued = n

variable {n : Nat}

theorem Adds.holds {as : List Action} {es : List (Edge EdgeKind)} (h : Adds c c' as es)
    (holds : c.Holds n) : c'.Holds (n + as.length) :=
  ⟨by rw [h.nodeCount_eq, holds.count], by rw [h.issued, holds.issued]⟩

theorem Adds.holds_size {s : Statement} {es : List (Edge EdgeKind)} (h : Adds c c' s.actions es)
    (holds : c.Holds n) : c'.Holds (n + s.size) :=
  s.length_actions ▸ h.holds holds

theorem yields_addNode (node : Node) : Yields (addNode node) c
    (fun m c' => m = c.graph.nodeCount ∧ c' = { c with graph := c.graph.addNode node }) [] :=
  ⟨_, _, rfl, rfl, rfl⟩

theorem yields_addPoint {a : Action} (holds : c.Holds n) (room : n < labelLimit) :
    Yields (addPoint a) c (fun m c' => m = n ∧ Adds c c' [a] []) [] := by
  have fresh : freshLabel c = .ok (.stmt (c.issued + 1), ⟨c.graph, c.issued + 1⟩) :=
    if_pos (holds.issued ▸ room)
  have added : addPoint a c = addNode ⟨.stmt (c.issued + 1), a⟩ ⟨c.graph, c.issued + 1⟩ := by
    change (freshLabel c >>= fun p => addNode ⟨p.1, a⟩ p.2) = _
    rw [fresh]
    rfl
  refine ⟨_, _, added, holds.count, ?_, ?_, rfl⟩
  · simp [Digraph.addNode, points]
  · simp [Digraph.addNode]

theorem yields_placePoint {a : Action} (holds : c.Holds n) (room : n < labelLimit) :
    Yields (placePoint a) c
      (fun p c' => p = ⟨n, [(n, .sequential)]⟩ ∧ Adds c c' [a] []) [] := by
  refine (yields_addPoint holds room).andThen ?_
  rintro _ c' ⟨rfl, added⟩
  exact .pure ⟨rfl, added⟩

theorem yields_addEdge {s t : Nat} {kind : EdgeKind} (count : c.graph.nodeCount = n)
    (source : s < n) (target : t < n) :
    Yields (addEdge s t kind) c (fun _ c' => Adds c c' [] [⟨s, t, kind⟩]) [] := by
  subst count
  have added : addEdge s t kind c =
      .ok ((), { c with graph := c.graph.pushEdge ⟨s, t, kind⟩ ⟨source, target⟩ }) := by
    rw [addEdge, Digraph.addEdge_of_lt source target]
  refine ⟨_, _, added, ?_, ?_, rfl⟩
  · simp [Digraph.pushEdge, points]
  · simp [Digraph.pushEdge]

/-- Edges can be added from nodes that are there to a node that is there. -/
theorem yields_link {exits : List (Nat × EdgeKind)} {t : Nat} {kind? : Option EdgeKind}
    (count : c.graph.nodeCount = n) (sources : ∀ x ∈ exits, x.1 < n) (target : t < n) :
    Yields (link exits t kind?) c
      (fun _ c' => Adds c c' [] (exits.map fun (m, kind) => ⟨m, t, kind?.getD kind⟩)) [] := by
  induction exits generalizing c with
  | nil => exact .pure .refl
  | cons x rest ih =>
    obtain ⟨m, kind⟩ := x
    obtain ⟨here, others⟩ := List.forall_mem_cons.1 sources
    refine (yields_addEdge count here target).andThen fun _ c' added => ?_
    exact (ih (added.nodeCount_eq.trans count) others).imp fun _ _ more => added.trans more

-- by recursion on the statement, one stage after the other; a part without issues has a point, so
-- the node that the part is entered at is there when an edge to it is added
mutual

/-- A statement is placed after the points so far, or its first issue stops the construction. -/
theorem yields_place (s : Statement) (block : BlockKind) (i : Nat) (c : Construction)
    (holds : c.Holds i) (room : i + s.size ≤ labelLimit) :
    Yields (place block s) c
      (fun p c' => p = ⟨i, s.exits i⟩ ∧ Adds c c' s.actions (s.edges i)) (s.issues block) := by
  cases s with
  | skip =>
    rw [place]
    exact yields_check (yields_placePoint holds room)
  | assign x e =>
    rw [place, Statement.issues, ← List.append_nil (Option.toList _)]
    exact yields_check (yields_placePoint holds room)
  | seq body =>
    rw [place]
    exact yields_check (yields_placeSeq body block i c holds room)
  | loop e body =>
    rw [place, Statement.issues, ← List.append_nil (body.issues _)]
    rw [Statement.size] at room
    refine yields_check ((yields_addPoint holds (by omega)).andThen ?_)
    rintro i c₁ ⟨rfl, test⟩
    have holds₁ : c₁.Holds (i + 1) := test.holds holds
    refine (yields_place body .loopBody (i + 1) c₁ holds₁ (by omega)).bind ?_
    rintro accepted _ c₂ ⟨rfl, inner⟩
    have holds₂ := inner.holds_size holds₁
    have pos := Statement.size_pos accepted
    dsimp only
    refine (yields_addEdge holds₂.count (by omega) (by omega)).andThen fun _ c₃ enter => ?_
    have holds₃ : c₃.Holds (i + 1 + body.size) := enter.holds holds₂
    refine (yields_link holds₃.count ?_ (by omega)).andThen fun _ c₄ back => .pure ⟨rfl, ?_⟩
    · intro x hx
      exact (body.exits_bounds (i + 1) x hx).2
    · have whole := ((test.trans inner).trans enter).trans back
      simpa [Statement.actions, Statement.edges, Statement.linkBack] using whole
  | branch e t f =>
    rw [place, Statement.issues, List.append_assoc, ← List.append_nil (f.issues _)]
    rw [Statement.size] at room
    refine yields_check ((yields_addPoint holds (by omega)).andThen ?_)
    rintro i c₁ ⟨rfl, test⟩
    have holds₁ : c₁.Holds (i + 1) := test.holds holds
    refine (yields_place t .trueBranch (i + 1) c₁ holds₁ (by omega)).bind ?_
    rintro accepted _ c₂ ⟨rfl, yes⟩
    have holds₂ := yes.holds_size holds₁
    refine (yields_place f .falseBranch _ c₂ holds₂ (by omega)).bind ?_
    rintro accepted' _ c₃ ⟨rfl, no⟩
    have holds₃ := no.holds_size holds₂
    have pos := Statement.size_pos accepted
    have pos' := Statement.size_pos accepted'
    dsimp only
    refine (yields_addEdge holds₃.count (by omega) (by omega)).andThen fun _ c₄ whenTrue => ?_
    have holds₄ : c₄.Holds (i + 1 + t.size + f.size) := whenTrue.holds holds₃
    refine (yields_addEdge holds₄.count (by omega) (by omega)).andThen fun _ c₅ whenFalse => ?_
    have whole := (((test.trans yes).trans no).trans whenTrue).trans whenFalse
    refine .pure ⟨rfl, ?_⟩
    simpa [Statement.actions, Statement.edges] using whole

theorem yields_placeSeq (body : List Statement) (block : BlockKind) (i : Nat) (c : Construction)
    (holds : c.Holds i) (room : i + Statement.sizeAll body ≤ labelLimit) :
    Yields (placeSeq block body) c
      (fun p c' => p = ⟨i, Statement.exitsAll i body⟩ ∧
        Adds c c' (Statement.actionsAll body) (Statement.edgesAll i [] body))
      ((Statement.seq body).issues block) := by
  cases body with
  | nil => rfl
  | cons s rest =>
    rw [Statement.sizeAll] at room
    change Yields (placeSeq block (s :: rest)) c _ (s.issues .sequence ++ Statement.issuesAll rest)
    rw [placeSeq, ← List.append_nil (Statement.issuesAll rest)]
    refine (yields_place s .sequence i c holds (by omega)).bind ?_
    rintro - _ c₁ ⟨rfl, first⟩
    refine (yields_placeRest rest s i c₁ (first.holds_size holds) (by omega)).bind ?_
    rintro - _ c₂ ⟨rfl, others⟩
    refine .pure ⟨rfl, ?_⟩
    simpa [Statement.actionsAll, Statement.edgesAll, Statement.link] using first.trans others

/-- Members of a sequence are placed after a member that starts at node `i`. -/
theorem yields_placeRest (body : List Statement) (s : Statement) (i : Nat) (c : Construction)
    (holds : c.Holds (i + s.size)) (room : i + s.size + Statement.sizeAll body ≤ labelLimit) :
    Yields (placeRest (s.exits i) body) c
      (fun exits c' => exits = Statement.exitsAll i (s :: body) ∧
        Adds c c' (Statement.actionsAll body)
          (Statement.edgesAll (i + s.size) (s.exits i) body))
      (Statement.issuesAll body) := by
  cases body with
  | nil => exact .pure ⟨rfl, .refl⟩
  | cons t rest =>
    rw [Statement.sizeAll] at room
    rw [placeRest, Statement.issuesAll]
    refine (yields_place t .sequence _ c holds (by omega)).bind ?_
    rintro accepted _ c₁ ⟨rfl, next⟩
    have holds₁ := next.holds_size holds
    have pos := Statement.size_pos accepted
    dsimp only
    refine (yields_link holds₁.count ?_ (by omega)).andThen fun _ c₂ linked => ?_
    · intro x hx
      have := (s.exits_bounds i x hx).2
      omega
    have holds₂ : c₂.Holds (i + s.size + t.size) := linked.holds holds₁
    refine (yields_placeRest rest t (i + s.size) c₂ holds₂ (by omega)).imp ?_
    rintro _ c₃ ⟨rfl, others⟩
    have whole := (next.trans linked).trans others
    refine ⟨rfl, ?_⟩
    simpa [Statement.actionsAll, Statement.edgesAll, Statement.link] using whole

end

variable {s : Statement}

/-- A program without issues is placed as its graph has it. -/
theorem yields_placeProgram (room : s.size ≤ labelLimit) :
    Yields (placeProgram s) start
      (fun ends c => ends = (0, s.size) ∧ c.graph = (FlowGraph.ofStatement s).graph)
      (s.issues .sequence) := by
  have holds : start.Holds 0 := ⟨rfl, rfl⟩
  rw [placeProgram, ← List.append_nil (s.issues _)]
  refine (yields_place s .sequence 0 start holds (by omega)).bind ?_
  rintro - _ c ⟨rfl, added⟩
  have holds : c.Holds s.size := Nat.zero_add s.size ▸ added.holds_size holds
  refine (yields_addNode ⟨.exit, .exit⟩).andThen ?_
  rintro _ c' ⟨rfl, rfl⟩
  rw [holds.count]
  have count : (c.graph.addNode ⟨.exit, .exit⟩).nodeCount = s.size + 1 := by
    rw [← holds.count]
    exact Array.size_push _
  refine (yields_link count ?_ (Nat.lt_succ_self _)).andThen fun _ c' linked => ?_
  · intro x hx
    have := (s.exits_bounds 0 x hx).2
    omega
  refine .pure ⟨rfl, Digraph.eq_of_nodes_edges ?_ ?_⟩
  · have nodes := linked.nodes
    simp only [Digraph.addNode, Array.toList_push, added.nodes] at nodes
    refine Array.toList_inj.1 (nodes.trans ?_)
    simp [start, Digraph.empty, points, FlowGraph.ofStatement, Digraph.ofEdges, FlowGraph.nodesOf]
  · have edges := linked.edges
    simp only [Digraph.addNode, added.edges] at edges
    refine Array.toList_inj.1 (edges.trans ?_)
    simp [start, Digraph.empty, FlowGraph.ofStatement, Digraph.ofEdges, FlowGraph.edgesOf,
      Statement.link]

end Construction

/-- An empty branch within a loop, and after it a name that shows nothing and an empty sequence. -/
def Statement.threeOffences : Statement :=
  .seq [.assign "x" (.const 0),
    .loop (.var "x") (.seq [.skip, .branch (.var "x") (.seq []) (.assign " " (.var "x"))]), .seq []]

namespace FlowGraph

variable {s : Statement}

/-- With labels enough a construction comes to the graph of the program or to its first issue. -/
theorem construct_eq_build (room : s.size ≤ labelLimit) :
    construct s = (build s).mapError .issue := by
  have yields := Construction.yields_placeProgram room
  rw [construct, build]
  cases h : s.issues .sequence with
  | nil =>
    rw [h] at yields
    obtain ⟨_, c, placed, rfl, graph⟩ := yields
    rw [placed]
    have exit : s.size < (ofStatement s).graph.nodeCount := (ofStatement s).exit_lt
    change (ofDigraph c.graph 0 s.size).mapError _ = _
    rw [graph, ofDigraph, dif_pos exit]
    rfl
  | cons i rest =>
    rw [h] at yields
    have stopped : Construction.placeProgram s .start = .error (.issue i) := yields
    rw [stopped]
    rfl

theorem construct_eq_ok_iff (room : s.size ≤ labelLimit) :
    (∃ g, construct s = .ok g) ↔ s.issues .sequence = [] := by
  rw [construct_eq_build room, build]
  cases s.issues .sequence <;> simp [Except.mapError]

theorem construct_eq_error_iff (room : s.size ≤ labelLimit) {e : ConstructionError} :
    construct s = .error e ↔ ∃ i, (∃ rest, s.issues .sequence = i :: rest) ∧ e = .issue i := by
  rw [construct_eq_build room, build]
  cases s.issues .sequence <;> simp [Except.mapError, eq_comm]

/-- With labels enough a construction succeeds when all names show something and no sequence is
empty. Otherwise it fails for the first statement in program order that does wrong, and never for
the graph. -/
theorem construct_stops_at_first_offence (room : s.size ≤ labelLimit) :
    ((∃ g, construct s = .ok g) ↔
      ∀ p ∈ s.preorder .sequence, p.2 ≠ .seq [] ∧ ∀ x ∈ p.2.ownNames, Text.trim x ≠ "") ∧
    (∀ e, construct s = .error e ↔ ∃ before p after i,
      s.preorder .sequence = before ++ p :: after ∧
        (∀ q ∈ before, ∀ j, ¬ Statement.Offends q.1 q.2 j) ∧ Statement.Offends p.1 p.2 i ∧
        e = .issue i) ∧
    (∀ e, construct s ≠ .error (.graph e)) ∧ (∀ f, construct s ≠ .error (.fault f)) ∧
    construct s = (build s).mapError .issue := by
  refine ⟨?_, fun e => ?_, fun e => ?_, fun f => ?_, construct_eq_build room⟩
  · rw [construct_eq_ok_iff room, Statement.issues_eq_nil_iff]
  · rw [construct_eq_error_iff room]
    simp only [Statement.exists_issues_eq_cons_iff]
    constructor
    · rintro ⟨i, ⟨before, p, after, order, none, offends⟩, rfl⟩
      exact ⟨before, p, after, i, order, none, offends, rfl⟩
    · rintro ⟨before, p, after, i, order, none, offends, rfl⟩
      exact ⟨i, ⟨before, p, after, order, none, offends⟩, rfl⟩
  · rw [Ne, construct_eq_error_iff room]
    rintro ⟨i, -, fails⟩
    cases fails
  · rw [Ne, construct_eq_error_iff room]
    rintro ⟨i, -, fails⟩
    cases fails

/-- Of three statements that do wrong, an empty branch comes first. -/
theorem construct_stops_at_first_offence_branch :
    Statement.threeOffences.size ≤ labelLimit ∧
      construct .threeOffences = .error (.issue (.emptyBlock .trueBranch)) ∧
      ∃ g, construct .countdown = .ok g := by
  have room : Statement.threeOffences.size ≤ labelLimit := by decide
  obtain ⟨-, fails, -⟩ := construct_stops_at_first_offence room
  obtain ⟨succeeds, -⟩ := construct_stops_at_first_offence (s := .countdown) (by decide)
  refine ⟨room, (fails _).2 ?_, succeeds.2 (Statement.issues_eq_nil_iff.1 (by decide))⟩
  let places := Statement.threeOffences.preorder .sequence
  have none : ∀ q ∈ places.take 6, q.2.offence? q.1 = none := by decide
  refine ⟨places.take 6, (.trueBranch, .seq []), places.drop 7, _, rfl, ?_, .emptyBlock, rfl⟩
  intro q before j offends
  rw [← Statement.offence?_eq_some_iff, none q before] at offends
  cases offends

end FlowGraph
end FlowAnalysis
