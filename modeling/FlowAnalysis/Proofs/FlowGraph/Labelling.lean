import FlowAnalysis.Proofs.FlowGraph.Construction

/-!
The labels that constructions take. Main statement: a construction takes a label for each point of
the program, so it succeeds just for the programs without issues that have no more points than there
are labels.
-/
namespace FlowAnalysis
namespace Construction

variable {α β : Type} {m : Stage α} {f : α → Stage β} {j k : Nat}

/-- If the stage succeeds, it has issued `n` labels, and there are so many. -/
def Labels (m : Stage α) (n : Nat) : Prop :=
  ∀ c a c', m c = .ok (a, c') → c.issued ≤ labelLimit →
    c'.issued = c.issued + n ∧ c'.issued ≤ labelLimit

namespace Labels

theorem bind (first : Labels m j) (next : ∀ a, Labels (f a) k) : Labels (m >>= f) (j + k) := by
  intro c b c'' ran within
  have ran : (m c >>= fun p => f p.1 p.2) = .ok (b, c'') := ran
  cases h : m c with
  | error e =>
    rw [h] at ran
    cases ran
  | ok p =>
    rw [h] at ran
    obtain ⟨issued, within⟩ := first c p.1 p.2 h within
    obtain ⟨issued', within⟩ := next p.1 p.2 b c'' ran within
    exact ⟨by omega, within⟩

/-- A stage that issues no label comes before. -/
theorem after (first : Labels m 0) (next : ∀ a, Labels (f a) k) : Labels (m >>= f) k :=
  Nat.zero_add k ▸ first.bind next

/-- A stage that issues no label comes after. -/
theorem before (first : Labels m j) (next : ∀ a, Labels (f a) 0) : Labels (m >>= f) j :=
  first.bind next

theorem pure (a : α) : Labels (pure a : Stage α) 0 := by
  intro c b c' ran within
  cases ran
  exact ⟨rfl, within⟩

theorem check (i? : Option Issue) : Labels (check i?) 0 := by
  cases i? with
  | none => exact pure ()
  | some i =>
    intro c a c' ran
    cases ran

theorem addNode (node : Node) : Labels (addNode node) 0 := by
  intro c a c' ran within
  cases ran
  exact ⟨rfl, within⟩

theorem addEdge (source target : Nat) (kind : EdgeKind) :
    Labels (addEdge source target kind) 0 := by
  intro c a c' ran within
  unfold Construction.addEdge at ran
  split at ran
  · cases ran
    exact ⟨rfl, within⟩
  · cases ran

theorem link (exits : List (Nat × EdgeKind)) (target : Nat) (kind? : Option EdgeKind) :
    Labels (link exits target kind?) 0 := by
  induction exits with
  | nil => exact pure ()
  | cons x rest ih => exact (addEdge x.1 target _).after fun _ => ih

theorem freshLabel : Labels freshLabel 1 := by
  intro c l c' ran within
  unfold Construction.freshLabel at ran
  split at ran
  next room =>
    cases ran
    exact ⟨rfl, room⟩
  next => cases ran

theorem addPoint (a : Action) : Labels (addPoint a) 1 :=
  freshLabel.bind fun l => addNode ⟨l, a⟩

theorem placePoint (a : Action) : Labels (placePoint a) 1 :=
  (addPoint a).bind fun _ => pure _

-- by recursion on the statement; a point takes one label, and edges take none
mutual

theorem place (s : Statement) (block : BlockKind) : Labels (place block s) s.size := by
  cases s with
  | skip =>
    rw [Construction.place]
    exact (check _).after fun _ => placePoint .skip
  | assign x e =>
    rw [Construction.place]
    exact (check _).after fun _ => placePoint (.assign x e)
  | seq body =>
    rw [Construction.place]
    exact (check _).after fun _ => placeSeq body block
  | loop c body =>
    rw [Construction.place, Statement.size, Nat.add_comm]
    refine (check _).after fun _ => (addPoint _).bind fun test => ?_
    refine (place body .loopBody).before fun part => ?_
    exact (addEdge _ _ _).after fun _ => (link _ _ _).after fun _ => pure _
  | branch c t f =>
    rw [Construction.place, Statement.size, Nat.add_comm]
    refine (check _).after fun _ => (addPoint _).bind fun test => ?_
    refine (place t .trueBranch).bind fun yes => (place f .falseBranch).before fun no => ?_
    exact (addEdge _ _ _).after fun _ => (addEdge _ _ _).after fun _ => pure _

theorem placeSeq (body : List Statement) (block : BlockKind) :
    Labels (placeSeq block body) (Statement.sizeAll body) := by
  cases body with
  | nil =>
    intro c a c' ran
    cases ran
  | cons s rest =>
    rw [Construction.placeSeq]
    exact (place s .sequence).bind fun head => (placeRest rest head.exits).before fun _ => pure _

theorem placeRest (body : List Statement) (pending : List (Nat × EdgeKind)) :
    Labels (placeRest pending body) (Statement.sizeAll body) := by
  cases body with
  | nil => exact pure pending
  | cons s rest =>
    rw [Construction.placeRest]
    exact (place s .sequence).bind fun next =>
      (link pending next.root none).after fun _ => placeRest rest next.exits

end

theorem placeProgram (s : Statement) : Labels (placeProgram s) s.size := by
  rw [Construction.placeProgram]
  exact (place s .sequence).before fun piece => (addNode _).after fun exit =>
    (link piece.exits exit none).after fun _ => pure _

end Labels
end Construction

namespace FlowGraph

variable {s : Statement} {g : FlowGraph}

/-- A construction succeeds for a program without issues if there are labels for all points. -/
theorem construct_eq_ok : construct s = .ok g ↔ build s = .ok g ∧ s.size ≤ labelLimit := by
  have enough : construct s = .ok g → s.size ≤ labelLimit := by
    intro made
    rw [construct] at made
    cases placed : Construction.placeProgram s .start with
    | error e =>
      rw [placed] at made
      cases made
    | ok p =>
      obtain ⟨issued, within⟩ :=
        Construction.Labels.placeProgram s .start p.1 p.2 placed (Nat.zero_le _)
      rw [issued] at within
      simpa [Construction.start] using within
  have same : s.size ≤ labelLimit → (construct s = .ok g ↔ build s = .ok g) := by
    intro room
    rw [construct_eq_build room]
    cases build s <;> simp [Except.mapError]
  constructor
  · intro made
    exact ⟨(same (enough made)).1 made, enough made⟩
  · rintro ⟨built, room⟩
    exact (same room).2 built

end FlowGraph
end FlowAnalysis
