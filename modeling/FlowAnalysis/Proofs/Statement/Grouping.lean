import FlowAnalysis.Proofs.Statement.Fragment

/-!
How sequences are grouped. Main statement: splicing the sequences of a statement into those around
them changes neither its points nor where control leaves it, and the edges at each node stay the
same, in the same order.
-/
namespace FlowAnalysis
namespace Statement

mutual

/-- The members of a statement as one sequence: sequences within it are spliced in, also in the
bodies of loops and in branches, each of which is a sequence then. -/
def flat : Statement → List Statement
  | skip => [skip]
  | assign x e => [assign x e]
  | seq body => flatAll body
  | loop c body => [loop c (seq body.flat)]
  | branch c t f => [branch c (seq t.flat) (seq f.flat)]

def flatAll : List Statement → List Statement
  | [] => []
  | s :: rest => s.flat ++ flatAll rest

end

/-- From each node lead the same edges, and to each node, in the same order. -/
structure SameEnds (es fs : List (Edge EdgeKind)) : Prop where
  leaving : ∀ n, es.filter (·.source == n) = fs.filter (·.source == n)
  entering : ∀ n, es.filter (·.target == n) = fs.filter (·.target == n)

namespace SameEnds

variable {es fs es' fs' gs : List (Edge EdgeKind)}

theorem refl : SameEnds es es := ⟨fun _ => rfl, fun _ => rfl⟩

theorem symm (h : SameEnds es fs) : SameEnds fs es :=
  ⟨fun n => (h.leaving n).symm, fun n => (h.entering n).symm⟩

theorem trans (h : SameEnds es fs) (h' : SameEnds fs gs) : SameEnds es gs :=
  ⟨fun n => (h.leaving n).trans (h'.leaving n), fun n => (h.entering n).trans (h'.entering n)⟩

theorem append (h : SameEnds es fs) (h' : SameEnds es' fs') :
    SameEnds (es ++ es') (fs ++ fs') := by
  constructor
  · intro n
    rw [List.filter_append, List.filter_append, h.leaving, h'.leaving]
  · intro n
    rw [List.filter_append, List.filter_append, h.entering, h'.entering]

/-- Members that no filter keeps together can change places. -/
theorem filter_append_comm {p : Edge EdgeKind → Bool}
    (apart : ∀ e ∈ es, ∀ f ∈ fs, p e = true → ¬ p f = true) :
    (es ++ fs).filter p = (fs ++ es).filter p := by
  rw [List.filter_append, List.filter_append]
  by_cases none : es.filter p = []
  · simp [none]
  · obtain ⟨e, he⟩ := List.exists_mem_of_ne_nil _ none
    obtain ⟨he, kept⟩ := List.mem_filter.1 he
    have none : fs.filter p = [] := List.filter_eq_nil_iff.2 fun f hf => apart e he f hf kept
    simp [none]

/-- Edges that share no end of one sort can change places. -/
theorem swap (sources : ∀ e ∈ es, ∀ f ∈ fs, e.source ≠ f.source)
    (targets : ∀ e ∈ es, ∀ f ∈ fs, e.target ≠ f.target) : SameEnds (es ++ fs) (fs ++ es) := by
  constructor
  · intro n
    refine filter_append_comm fun e he f hf here there => sources e he f hf ?_
    rw [beq_iff_eq.1 here, beq_iff_eq.1 there]
  · intro n
    refine filter_append_comm fun e he f hf here there => targets e he f hf ?_
    rw [beq_iff_eq.1 here, beq_iff_eq.1 there]

end SameEnds

mutual

/-- The edges within a statement lead from its own nodes to its own nodes or on. -/
theorem edges_from (s : Statement) (i : Nat) : ∀ e ∈ s.edges i, i ≤ e.source ∧ i ≤ e.target := by
  cases s with
  | skip => simp [edges]
  | assign x e => simp [edges]
  | seq body => exact edgesAll_from body i i [] (Nat.le_refl i) (by simp)
  | loop c body =>
    intro e he
    simp only [edges, linkBack, List.mem_append, List.mem_cons, List.mem_map] at he
    obtain inner | rfl | ⟨x, hx, rfl⟩ := he
    · have := edges_from body (i + 1) e inner
      omega
    · simp
    · have := exits_bounds body (i + 1) x hx
      simp only
      omega
  | branch c t f =>
    intro e he
    simp only [edges, List.mem_append, List.mem_cons, List.not_mem_nil, or_false] at he
    obtain (yes | no) | rfl | rfl := he
    · have := edges_from t (i + 1) e yes
      omega
    · have := edges_from f (i + 1 + t.size) e no
      omega
    · simp
    · simp only
      omega

theorem edgesAll_from (body : List Statement) (i k : Nat) (pending : List (Nat × EdgeKind))
    (le : k ≤ i) (after : ∀ x ∈ pending, k ≤ x.1) :
    ∀ e ∈ edgesAll i pending body, k ≤ e.source ∧ i ≤ e.target := by
  cases body with
  | nil => simp [edgesAll]
  | cons s rest =>
    intro e he
    simp only [edgesAll, link, List.mem_append, List.mem_map] at he
    obtain (inner | ⟨x, hx, rfl⟩) | others := he
    · have := edges_from s i e inner
      omega
    · exact ⟨after x hx, Nat.le_refl i⟩
    · have := edgesAll_from rest (i + s.size) k (s.exits i) (by omega)
        (fun x hx => Nat.le_trans le (exits_bounds s i x hx).1) e others
      omega

end

variable {xs ys body : List Statement} {i : Nat} {pending : List (Nat × EdgeKind)}

/-- The edges into a sequence can come after those within it. -/
theorem edgesAll_pending (some : body ≠ []) (pos : ∀ s ∈ body, 0 < s.size)
    (before : ∀ x ∈ pending, x.1 < i) :
    SameEnds (edgesAll i pending body) (edgesAll i [] body ++ link pending i) := by
  cases body with
  | nil => exact absurd rfl some
  | cons s rest =>
    have posFirst := pos s List.mem_cons_self
    have others := edgesAll_from rest (i + s.size) i (s.exits i) (Nat.le_add_right i _)
      (fun x hx => (exits_bounds s i x hx).1)
    have swapped : SameEnds (link pending i ++ edgesAll (i + s.size) (s.exits i) rest)
        (edgesAll (i + s.size) (s.exits i) rest ++ link pending i) := by
      refine SameEnds.swap ?_ ?_
      · intro e he f hf
        obtain ⟨x, hx, rfl⟩ := List.mem_map.1 he
        have := before x hx
        have := others f hf
        simp only
        omega
      · intro e he f hf
        obtain ⟨x, hx, rfl⟩ := List.mem_map.1 he
        have := others f hf
        simp only
        omega
    have inner : SameEnds (s.edges i) (s.edges i) := .refl
    have whole := inner.append swapped
    simpa [edgesAll, link] using whole

theorem actionsAll_append : actionsAll (xs ++ ys) = actionsAll xs ++ actionsAll ys := by
  induction xs with
  | nil => rfl
  | cons s rest ih => rw [List.cons_append, actionsAll, ih, actionsAll, List.append_assoc]

theorem exitsAll_append (some : ys ≠ []) :
    exitsAll i (xs ++ ys) = exitsAll (i + sizeAll xs) ys := by
  induction xs generalizing i with
  | nil => rfl
  | cons s rest ih =>
    obtain ⟨t, more, whole⟩ := List.exists_cons_of_ne_nil
      (show rest ++ ys ≠ [] from List.append_ne_nil_of_right_ne_nil rest some)
    rw [List.cons_append, whole, exitsAll, ← whole, ih, sizeAll, Nat.add_assoc]

theorem edgesAll_append (some : xs ≠ []) : edgesAll i pending (xs ++ ys) =
    edgesAll i pending xs ++ edgesAll (i + sizeAll xs) (exitsAll i xs) ys := by
  induction xs generalizing i pending with
  | nil => exact absurd rfl some
  | cons s rest ih =>
    cases rest with
    | nil => simp [edgesAll, sizeAll, exitsAll]
    | cons t rest =>
      change s.edges i ++ link pending i ++ edgesAll (i + s.size) (s.exits i) (t :: rest ++ ys) =
        s.edges i ++ link pending i ++ edgesAll (i + s.size) (s.exits i) (t :: rest) ++
          edgesAll (i + (s.size + sizeAll (t :: rest))) (exitsAll (i + s.size) (t :: rest)) ys
      rw [ih (List.cons_ne_nil t rest), ← List.append_assoc, Nat.add_assoc]

mutual

theorem actions_flat (s : Statement) : actionsAll s.flat = s.actions := by
  cases s with
  | skip => rfl
  | assign x e => rfl
  | seq body => exact actions_flatAll body
  | loop c body => simp [flat, actionsAll, actions, actions_flat body]
  | branch c t f => simp [flat, actionsAll, actions, actions_flat t, actions_flat f]

theorem actions_flatAll (body : List Statement) : actionsAll (flatAll body) = actionsAll body := by
  cases body with
  | nil => rfl
  | cons s rest => rw [flatAll, actionsAll_append, actions_flat s, actions_flatAll rest, actionsAll]

end

theorem size_flat (s : Statement) : sizeAll s.flat = s.size := by
  rw [← length_actionsAll, actions_flat, length_actions]

mutual

/-- No sequence is left among the members, so each has a point. -/
theorem pos_of_mem_flat (s : Statement) : ∀ m ∈ s.flat, 0 < m.size := by
  cases s with
  | skip => simp [flat, size]
  | assign x e => simp [flat, size]
  | seq body => exact pos_of_mem_flatAll body
  | loop c body => simp [flat, size]
  | branch c t f => simp [flat, size]

theorem pos_of_mem_flatAll (body : List Statement) : ∀ m ∈ flatAll body, 0 < m.size := by
  cases body with
  | nil => simp [flatAll]
  | cons s rest => exact List.forall_mem_append.2 ⟨pos_of_mem_flat s, pos_of_mem_flatAll rest⟩

end

theorem flat_ne_nil {s : Statement} {block : BlockKind} (accepted : s.issues block = []) :
    s.flat ≠ [] := by
  intro none
  have pos := size_pos accepted
  rw [← size_flat, none] at pos
  exact absurd pos (Nat.lt_irrefl 0)

theorem flatAll_ne_nil (some : body ≠ []) (accepted : issuesAll body = []) : flatAll body ≠ [] := by
  cases body with
  | nil => exact absurd rfl some
  | cons s rest =>
    rw [issuesAll, List.append_eq_nil_iff] at accepted
    exact List.append_ne_nil_of_left_ne_nil (flat_ne_nil accepted.1) _

mutual

theorem exits_flat (s : Statement) (block : BlockKind) (i : Nat) (accepted : s.issues block = []) :
    exitsAll i s.flat = s.exits i := by
  cases s with
  | skip => rfl
  | assign x e => rfl
  | seq body =>
    simp only [issues, List.isEmpty_iff] at accepted
    by_cases empty : body = []
    · simp [empty] at accepted
    · exact exits_flatAll body i (by simpa [empty] using accepted)
  | loop c body => rfl
  | branch c t f =>
    simp only [issues, List.append_eq_nil_iff] at accepted
    have yes := exits_flat t .trueBranch (i + 1) accepted.1.2
    have no := exits_flat f .falseBranch (i + 1 + t.size) accepted.2
    simp only [flat, exitsAll, exits, size, size_flat, yes, no]

theorem exits_flatAll (body : List Statement) (i : Nat) (accepted : issuesAll body = []) :
    exitsAll i (flatAll body) = exitsAll i body := by
  match body with
  | [] => rfl
  | [s] =>
    simp only [issuesAll, List.append_nil] at accepted
    simpa [flatAll, exitsAll] using exits_flat s .sequence i accepted
  | s :: t :: rest =>
    rw [issuesAll, List.append_eq_nil_iff] at accepted
    have more := flatAll_ne_nil (List.cons_ne_nil t rest) accepted.2
    have others := exits_flatAll (t :: rest) (i + s.size) accepted.2
    rw [flatAll, exitsAll_append more, size_flat, others, exitsAll]

end

mutual

theorem edges_flat (s : Statement) (block : BlockKind) (i : Nat) (accepted : s.issues block = []) :
    SameEnds (edgesAll i [] s.flat) (s.edges i) := by
  cases s with
  | skip => exact SameEnds.refl
  | assign x e => exact SameEnds.refl
  | seq body =>
    simp only [issues, List.isEmpty_iff] at accepted
    by_cases empty : body = []
    · simp [empty] at accepted
    · exact edges_flatAll body i [] (by simpa [empty] using accepted) (by simp)
  | loop c body =>
    simp only [issues, List.append_eq_nil_iff] at accepted
    have inner := edges_flat body .loopBody (i + 1) accepted.2
    have out := exits_flat body .loopBody (i + 1) accepted.2
    simp only [flat, edgesAll, edges, link, List.map_nil, List.append_nil, exits, out]
    exact inner.append SameEnds.refl
  | branch c t f =>
    simp only [issues, List.append_eq_nil_iff] at accepted
    have yes := edges_flat t .trueBranch (i + 1) accepted.1.2
    have no := edges_flat f .falseBranch (i + 1 + t.size) accepted.2
    simp only [flat, edgesAll, edges, link, List.map_nil, List.append_nil, size, size_flat]
    exact (yes.append no).append SameEnds.refl

theorem edges_flatAll (body : List Statement) (i : Nat) (pending : List (Nat × EdgeKind))
    (accepted : issuesAll body = []) (before : ∀ x ∈ pending, x.1 < i) :
    SameEnds (edgesAll i pending (flatAll body)) (edgesAll i pending body) := by
  cases body with
  | nil => exact SameEnds.refl
  | cons s rest =>
    rw [issuesAll, List.append_eq_nil_iff] at accepted
    have some := flat_ne_nil accepted.1
    have first : SameEnds (edgesAll i pending s.flat) (s.edges i ++ link pending i) :=
      (edgesAll_pending some (pos_of_mem_flat s) before).trans
        ((edges_flat s .sequence i accepted.1).append SameEnds.refl)
    have others := edges_flatAll rest (i + s.size) (s.exits i) accepted.2
      fun x hx => (exits_bounds s i x hx).2
    rw [flatAll, edgesAll_append some, size_flat, exits_flat s .sequence i accepted.1, edgesAll]
    exact first.append others

end

end Statement
end FlowAnalysis
