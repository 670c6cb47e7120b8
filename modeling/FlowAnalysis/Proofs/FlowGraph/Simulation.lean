import FlowAnalysis.Proofs.FlowGraph.Built
import FlowAnalysis.Proofs.Statement.Execution
import FlowAnalysis.Proofs.Statement.Trace

/-!
Executions follow the graph. Main statements: what is pending in an execution of a program is placed
in the program's graph, where the point that comes next is a node with its label and its action; the
points passed make a walk from the entry; and those of an execution that finishes make a trace.
-/
namespace FlowAnalysis
namespace FlowGraph

variable {g : FlowGraph} {s : Statement} {i n : Nat} {as bs : List Action}
  {rest : List (Nat × Statement)} {body : List Statement}

/-- The nodes from `i` on, labelled by their numbers from one, do `as`. -/
def HoldsAt (g : FlowGraph) (i : Nat) (as : List Action) : Prop :=
  ∀ j a, as[j]? = some a → g.node? (i + j) = some ⟨.stmt (i + j + 1), a⟩

theorem holdsAt_append :
    g.HoldsAt i (as ++ bs) ↔ g.HoldsAt i as ∧ g.HoldsAt (i + as.length) bs := by
  constructor
  · intro h
    constructor
    · intro j a at_j
      exact h j a (by rw [List.getElem?_append_left (List.getElem?_eq_some_iff.1 at_j).1, at_j])
    · intro j a at_j
      have := h (as.length + j) a (by rw [List.getElem?_append_right (by omega)]; simpa using at_j)
      rwa [← Nat.add_assoc] at this
  · intro ⟨first, second⟩ j a at_j
    by_cases lt : j < as.length
    · exact first j a (by rwa [List.getElem?_append_left lt] at at_j)
    · rw [List.getElem?_append_right (Nat.le_of_not_lt lt)] at at_j
      have := second (j - as.length) a at_j
      rwa [Nat.add_assoc, Nat.add_sub_cancel' (Nat.le_of_not_lt lt)] at this

theorem holdsAt_cons {a : Action} : g.HoldsAt i (a :: as) ↔
    g.node? i = some ⟨.stmt (i + 1), a⟩ ∧ g.HoldsAt (i + 1) as := by
  rw [← List.singleton_append, holdsAt_append]
  refine and_congr_left fun _ => ⟨fun h => h 0 a rfl, fun h j b at_j => ?_⟩
  obtain ⟨rfl, rfl⟩ : j = 0 ∧ b = a := by
    cases j with
    | zero => exact ⟨rfl, (Option.some.inj at_j).symm⟩
    | succ j => simp at at_j
  exact h

theorem HoldsAt.action (h : g.HoldsAt i s.actions) {a : Action} (ha : s.action? = some a) :
    g.node? i = some ⟨.stmt (i + 1), a⟩ := by
  cases s with
  | skip =>
    obtain rfl := Option.some.inj ha
    exact (holdsAt_cons.1 h).1
  | assign x e =>
    obtain rfl := Option.some.inj ha
    exact (holdsAt_cons.1 h).1
  | seq body => cases ha
  | loop c body =>
    obtain rfl := Option.some.inj ha
    exact (holdsAt_cons.1 h).1
  | branch c t f =>
    obtain rfl := Option.some.inj ha
    exact (holdsAt_cons.1 h).1

theorem holdsAt_ofStatement : (ofStatement s).HoldsAt 0 s.actions := by
  intro j a at_j
  have lt := (List.getElem?_eq_some_iff.1 at_j).1
  rw [Nat.zero_add]
  simp only [node?, ofStatement, Digraph.ofEdges, nodesOf, List.getElem?_toArray]
  rw [List.getElem?_append_left (by simpa using lt), List.getElem?_mapIdx, at_j]
  rfl

/-- The node at which what is pending starts: the exit, if nothing is. -/
def point (g : FlowGraph) : List (Nat × Statement) → Nat
  | [] => g.exit
  | (i, _) :: _ => i

/-- What is pending stands in the graph, each statement wired to the next. -/
def Placed (g : FlowGraph) : List (Nat × Statement) → Prop
  | [] => True
  | (i, s) :: rest => (s.Wired g.Step i (g.point rest) ∧ g.HoldsAt i s.actions) ∧ g.Placed rest

theorem placed_members (wired : Statement.WiredAll g.Step i (g.point rest) body)
    (holds : g.HoldsAt i (Statement.actionsAll body)) (placed : g.Placed rest) :
    g.Placed (Statement.members i body ++ rest) ∧
      g.point (Statement.members i body ++ rest) = i := by
  induction body generalizing i with
  | nil => exact wired.elim
  | cons s body ih =>
    rw [Statement.actionsAll, holdsAt_append, Statement.length_actions] at holds
    cases body with
    | nil => exact ⟨⟨⟨wired, holds.1⟩, placed⟩, rfl⟩
    | cons t body =>
      obtain ⟨later, next⟩ := ih wired.2 holds.2
      exact ⟨⟨⟨next ▸ wired.1, holds.1⟩, later⟩, rfl⟩

/-- However a test turns out, what is pending next is placed; a point is left along an edge, and a
sequence is entered where it stands. -/
theorem Placed.proceed (h : g.Placed ((i, s) :: rest)) (b : Bool) :
    g.Placed (s.proceed b i rest) ∧
      (s.action? ≠ none → g.Step i (g.point (s.proceed b i rest))) ∧
      (s.action? = none → g.point (s.proceed b i rest) = i) := by
  obtain ⟨⟨wired, holds⟩, placed⟩ := h
  cases s with
  | skip => exact ⟨placed, fun _ => (wired _).2 rfl, fun none => by cases none⟩
  | assign x e => exact ⟨placed, fun _ => (wired _).2 rfl, fun none => by cases none⟩
  | seq body =>
    obtain ⟨members, start⟩ := placed_members wired holds placed
    exact ⟨members, fun some => absurd rfl some, fun _ => start⟩
  | loop c body =>
    obtain ⟨test, inner⟩ := id wired
    cases b with
    | true =>
      refine ⟨⟨⟨inner, (holdsAt_cons.1 holds).2⟩, ⟨wired, holds⟩, placed⟩, fun _ => ?_,
        fun none => by cases none⟩
      exact (test _).2 (Or.inl rfl)
    | false => exact ⟨placed, fun _ => (test _).2 (Or.inr rfl), fun none => by cases none⟩
  | branch c t f =>
    obtain ⟨test, yes, no⟩ := wired
    have parts := (holdsAt_cons.1 holds).2
    rw [holdsAt_append, Statement.length_actions] at parts
    cases b with
    | true =>
      refine ⟨⟨⟨yes, parts.1⟩, placed⟩, fun _ => ?_, fun none => by cases none⟩
      exact (test _).2 (Or.inl rfl)
    | false =>
      refine ⟨⟨⟨no, parts.2⟩, placed⟩, fun _ => ?_, fun none => by cases none⟩
      exact (test _).2 (Or.inr rfl)

universe u

variable {V : Type u}

theorem Placed.step {m : Evaluator V} {x : Execution V} (h : g.Placed x.pending) :
    g.Placed (m.step x).pending := by
  obtain ⟨pending, store⟩ := x
  cases pending with
  | nil => exact h
  | cons p rest =>
    rw [Evaluator.step_cons]
    exact (Placed.proceed h _).1

/-- All that is pending in an execution of a program is placed in the program's graph. -/
theorem placed_run (built : build s = .ok g) (m : Evaluator V) (σ : Variable → V) (k : Nat) :
    g.Placed (m.run s σ k).pending := by
  induction k with
  | zero =>
    obtain ⟨accepted, rfl⟩ := build_eq_ok.1 built
    exact ⟨⟨wired_ofStatement accepted, holdsAt_ofStatement⟩, trivial⟩
  | succ k ih => exact ih.step

/-- A label comes next at its node. -/
theorem node?_of_label? (built : build s = .ok g) {x : Execution V} (placed : g.Placed x.pending)
    {l : Label} (next : x.label? = some l) :
    ∃ node, g.node? (g.point x.pending) = some node ∧ node.label = l := by
  obtain ⟨pending, store⟩ := x
  cases pending with
  | nil =>
    obtain rfl := Option.some.inj next
    obtain ⟨-, rfl⟩ := build_eq_ok.1 built
    have labelled : (ofStatement s).label? s.size = some .exit := label?_size
    exact Option.map_eq_some_iff.1 labelled
  | cons p rest =>
    obtain ⟨i, s⟩ := p
    cases ha : s.action? with
    | none =>
      cases s with
      | seq body => cases next
      | _ => cases ha
    | some a =>
      refine ⟨_, placed.1.2.action ha, ?_⟩
      cases s with
      | seq body => cases ha
      | _ => exact Option.some.inj next

/-- The points that an execution passes are a walk from the entry to the point that comes next. -/
theorem walk_passed (built : build s = .ok g) (m : Evaluator V) (σ : Variable → V) (k : Nat) :
    Walk g.Step 0 (m.passed s σ k) (g.point (m.run s σ k).pending) := by
  induction k with
  | zero => exact Walk.stay
  | succ k ih =>
    have placed := placed_run built m σ k
    rw [Evaluator.passed, Evaluator.run]
    generalize m.run s σ k = x at ih placed
    obtain ⟨pending, store⟩ := x
    cases pending with
    | nil => simpa [Execution.next, Evaluator.step] using ih
    | cons p rest =>
      obtain ⟨i, t⟩ := p
      have next : (Execution.mk ((i, t) :: rest) store).next =
          if t.action?.isSome then [i] else [] := rfl
      obtain ⟨-, passes, enters⟩ := placed.proceed (m.outcome store t.action?)
      rw [Evaluator.step_cons, next]
      cases ha : t.action? with
      | none =>
        rw [ha] at enters
        simpa [enters rfl] using (show Walk g.Step 0 (m.passed s σ k) i from ih)
      | some a =>
        rw [ha] at passes
        exact ih.step (passes (by simp))

/-- An execution that finishes has passed the points of a trace. -/
theorem trace_passed (built : build s = .ok g) {m : Evaluator V} {σ : Variable → V} {k : Nat}
    (finished : (m.run s σ k).Finished) : s.Trace 0 (m.passed s σ k) := by
  have walk := walk_passed built m σ k
  obtain ⟨accepted, rfl⟩ := build_eq_ok.1 built
  rw [Execution.Finished] at finished
  rw [finished] at walk
  refine (wired_ofStatement accepted).trace_of_walk (d := s.size) (by omega) walk fun mem => ?_
  obtain ⟨n, step⟩ := walk.next_of_mem mem
  exact Nat.lt_irrefl _ (lt_of_step_ofStatement step)

end FlowGraph
end FlowAnalysis
