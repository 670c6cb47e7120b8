import FlowAnalysis.Proofs.Walk
import FlowAnalysis.Statement.ControlFlow
import FlowAnalysis.Statement.Issue

/-!
Fragments of control flow: ranges of nodes entered at the first and left at given exits. Main
statement: the edges of a statement without issues make its points a fragment, whatever loops and
branches it nests.
-/
namespace FlowAnalysis

variable {R : Nat → Nat → Prop} {i c d : Nat} {kind : EdgeKind} {xs ys : List (Nat × EdgeKind)}

/-- From node `i`, steps of `R` lead to each of the `count` nodes from there on, and from each of
them to an exit. -/
structure Fragment (R : Nat → Nat → Prop) (i count : Nat) (exits : List (Nat × EdgeKind)) :
    Prop where
  pos : 0 < count
  entered : ∀ n, i ≤ n → n < i + count → ∃ ns, Walk R i ns n
  left : ∀ n, i ≤ n → n < i + count → ∃ x ∈ exits, ∃ ns, Walk R n ns x.1

namespace Fragment

theorem node : Fragment R i 1 [(i, kind)] where
  pos := Nat.one_pos
  entered := by
    intro n le lt
    obtain rfl : n = i := by omega
    exact ⟨[], Walk.stay⟩
  left := by
    intro n le lt
    obtain rfl : n = i := by omega
    exact ⟨_, List.mem_singleton_self _, [], Walk.stay⟩

/-- From the entry of a fragment control comes to where all its exits lead. -/
theorem through (first : Fragment R i c xs) (link : ∀ x ∈ xs, R x.1 d) {n : Nat} (le : i ≤ n)
    (lt : n < i + c) : ∃ ns, Walk R n ns d := by
  obtain ⟨x, hx, ns, walk⟩ := first.left n le lt
  exact ⟨_, walk.step (link x hx)⟩

/-- One fragment after the other. -/
theorem seq (first : Fragment R i c xs) (second : Fragment R (i + c) d ys)
    (link : ∀ x ∈ xs, R x.1 (i + c)) : Fragment R i (c + d) ys where
  pos := Nat.add_pos_left first.pos d
  entered := by
    intro n le lt
    by_cases inFirst : n < i + c
    · exact first.entered n le inFirst
    · obtain ⟨ms, walk⟩ := first.through link (Nat.le_refl i) (Nat.lt_add_of_pos_right first.pos)
      obtain ⟨ns, rest⟩ := second.entered n (Nat.le_of_not_lt inFirst) (by omega)
      exact ⟨_, walk.append rest⟩
  left := by
    intro n le lt
    by_cases inFirst : n < i + c
    · obtain ⟨ms, walk⟩ := first.through link le inFirst
      obtain ⟨x, hx, ns, rest⟩ :=
        second.left (i + c) (Nat.le_refl _) (Nat.lt_add_of_pos_right second.pos)
      exact ⟨x, hx, _, walk.append rest⟩
    · exact second.left n (Nat.le_of_not_lt inFirst) (by omega)

/-- A test with a body that leads back to it. -/
theorem loop (body : Fragment R (i + 1) c xs) (enter : R i (i + 1)) (back : ∀ x ∈ xs, R x.1 i) :
    Fragment R i (c + 1) [(i, kind)] where
  pos := Nat.succ_pos c
  entered := by
    intro n le lt
    by_cases test : n = i
    · exact ⟨[], test ▸ Walk.stay⟩
    · obtain ⟨ns, walk⟩ := body.entered n (by omega) (by omega)
      exact ⟨_, Walk.cons enter walk⟩
  left := by
    intro n le lt
    refine ⟨_, List.mem_singleton_self _, ?_⟩
    by_cases test : n = i
    · exact ⟨[], test ▸ Walk.stay⟩
    · exact body.through back (by omega) (by omega)

/-- A test with two fragments to go on with. -/
theorem branch (yes : Fragment R (i + 1) c xs) (no : Fragment R (i + 1 + c) d ys)
    (enterYes : R i (i + 1)) (enterNo : R i (i + 1 + c)) :
    Fragment R i (c + d + 1) (xs ++ ys) where
  pos := Nat.succ_pos _
  entered := by
    intro n le lt
    by_cases test : n = i
    · exact ⟨[], test ▸ Walk.stay⟩
    · by_cases inYes : n < i + 1 + c
      · obtain ⟨ns, walk⟩ := yes.entered n (by omega) inYes
        exact ⟨_, Walk.cons enterYes walk⟩
      · obtain ⟨ns, walk⟩ := no.entered n (Nat.le_of_not_lt inYes) (by omega)
        exact ⟨_, Walk.cons enterNo walk⟩
  left := by
    intro n le lt
    have leftYes : ∀ m, i + 1 ≤ m → m < i + 1 + c → ∃ x ∈ xs ++ ys, ∃ ns, Walk R m ns x.1 := by
      intro m le lt
      obtain ⟨x, hx, leave⟩ := yes.left m le lt
      exact ⟨x, List.mem_append_left _ hx, leave⟩
    by_cases test : n = i
    · obtain ⟨x, hx, ns, walk⟩ :=
        leftYes (i + 1) (Nat.le_refl _) (Nat.lt_add_of_pos_right yes.pos)
      exact ⟨x, hx, _, Walk.cons (test ▸ enterYes) walk⟩
    · by_cases inYes : n < i + 1 + c
      · exact leftYes n (by omega) inYes
      · obtain ⟨x, hx, leave⟩ := no.left n (Nat.le_of_not_lt inYes) (by omega)
        exact ⟨x, List.mem_append_right _ hx, leave⟩

end Fragment

namespace Statement

/-- Every edge of the list is a step of `R`. -/
def Within (R : Nat → Nat → Prop) (es : List (Edge EdgeKind)) : Prop :=
  ∀ e ∈ es, R e.source e.target

variable {es fs : List (Edge EdgeKind)} {block : BlockKind}

@[simp] theorem within_append : Within R (es ++ fs) ↔ Within R es ∧ Within R fs :=
  List.forall_mem_append

@[simp] theorem within_cons {e : Edge EdgeKind} :
    Within R (e :: es) ↔ R e.source e.target ∧ Within R es :=
  List.forall_mem_cons

@[simp] theorem within_link {target : Nat} :
    Within R (link xs target) ↔ ∀ x ∈ xs, R x.1 target :=
  List.forall_mem_map

@[simp] theorem within_linkBack {test : Nat} :
    Within R (linkBack xs test) ↔ ∀ x ∈ xs, R x.1 test :=
  List.forall_mem_map

-- by recursion on the statement; a sequence is one fragment after the other, with the edges into
-- each member but the first from the exits of the one before
mutual

theorem fragment (s : Statement) (block : BlockKind) (i : Nat) (accepted : s.issues block = [])
    (h : Within R (s.edges i)) : Fragment R i s.size (s.exits i) := by
  cases s with
  | skip => exact Fragment.node
  | assign x e => exact Fragment.node
  | seq body =>
    simp only [issues, List.isEmpty_iff] at accepted
    by_cases empty : body = []
    · simp [empty] at accepted
    · exact fragmentAll body i [] empty (by simpa [empty] using accepted) h
  | loop cond body =>
    simp only [issues, List.append_eq_nil_iff] at accepted
    simp only [edges, within_append, within_cons, within_linkBack] at h
    obtain ⟨inner, enter, back⟩ := h
    exact Fragment.loop (fragment body .loopBody (i + 1) accepted.2 inner) enter back
  | branch cond t f =>
    simp only [issues, List.append_eq_nil_iff] at accepted
    simp only [edges, within_append, within_cons] at h
    obtain ⟨⟨inYes, inNo⟩, enterYes, enterNo, -⟩ := h
    exact Fragment.branch (fragment t .trueBranch (i + 1) accepted.1.2 inYes)
      (fragment f .falseBranch (i + 1 + t.size) accepted.2 inNo) enterYes enterNo

theorem fragmentAll (body : List Statement) (i : Nat) (pending : List (Nat × EdgeKind))
    (some : body ≠ []) (accepted : issuesAll body = [])
    (h : Within R (edgesAll i pending body)) :
    Fragment R i (sizeAll body) (exitsAll i body) := by
  cases body with
  | nil => exact absurd rfl some
  | cons s rest =>
    simp only [issuesAll, List.append_eq_nil_iff] at accepted
    simp only [edgesAll, within_append] at h
    have first := fragment s .sequence i accepted.1 h.1.1
    cases rest with
    | nil => exact first
    | cons t rest =>
      have second := fragmentAll (t :: rest) (i + s.size) (s.exits i)
        (List.cons_ne_nil t rest) accepted.2 h.2
      simp only [edgesAll, within_append, within_link] at h
      exact first.seq second h.2.1.2

end

/-- A statement without issues has a point. -/
theorem size_pos {s : Statement} {block : BlockKind} (accepted : s.issues block = []) :
    0 < s.size :=
  (fragment (R := fun _ _ => True) s block 0 accepted fun _ _ => trivial).pos

end Statement
end FlowAnalysis
