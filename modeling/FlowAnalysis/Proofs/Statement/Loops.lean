import FlowAnalysis.Proofs.Statement.Wiring

/-!
The loops of a statement, each as the range of its nodes. Main statements: where control goes from a
node to an earlier one, or stays, it goes to the test of a loop around the node; control enters a
loop at its test alone; no node is in more loops than the statement nests; and the edges that lead
back are those of the kind `back`.
-/
namespace FlowAnalysis
namespace Statement

mutual

/-- How deep loops are nested. -/
def loopDepth : Statement → Nat
  | skip => 0
  | assign _ _ => 0
  | seq body => loopDepthAll body
  | loop _ body => body.loopDepth + 1
  | branch _ t f => max t.loopDepth f.loopDepth

def loopDepthAll : List Statement → Nat
  | [] => 0
  | s :: rest => max s.loopDepth (loopDepthAll rest)

end

mutual

/-- The loops of a statement that starts at node `i`: the test of each, which is its first node, and
the node after its last. -/
def loops (i : Nat) : Statement → List (Nat × Nat)
  | skip => []
  | assign _ _ => []
  | seq body => loopsAll i body
  | loop _ body => (i, i + 1 + body.size) :: body.loops (i + 1)
  | branch _ t f => t.loops (i + 1) ++ f.loops (i + 1 + t.size)

def loopsAll (i : Nat) : List Statement → List (Nat × Nat)
  | [] => []
  | s :: rest => s.loops i ++ loopsAll (i + s.size) rest

end

/-- Node `n` is in the loop, as its test or in its body. -/
def Around (n : Nat) (l : Nat × Nat) : Prop := l.1 ≤ n ∧ n < l.2

instance (n : Nat) : DecidablePred (Around n) :=
  fun l => inferInstanceAs (Decidable (l.1 ≤ n ∧ n < l.2))

mutual

theorem loops_bounds {s : Statement} {i : Nat} {l : Nat × Nat} (h : l ∈ s.loops i) :
    i ≤ l.1 ∧ l.1 < l.2 ∧ l.2 ≤ i + s.size := by
  cases s with
  | skip => cases h
  | assign x e => cases h
  | seq body => exact loopsAll_bounds h
  | loop c body =>
    rw [size]
    obtain rfl | inner := List.mem_cons.1 h
    · simp only
      omega
    · have := loops_bounds inner
      omega
  | branch c t f =>
    rw [size]
    obtain yes | no := List.mem_append.1 h
    · have := loops_bounds yes
      omega
    · have := loops_bounds no
      omega

theorem loopsAll_bounds {body : List Statement} {i : Nat} {l : Nat × Nat}
    (h : l ∈ loopsAll i body) : i ≤ l.1 ∧ l.1 < l.2 ∧ l.2 ≤ i + sizeAll body := by
  cases body with
  | nil => cases h
  | cons s rest =>
    rw [sizeAll]
    obtain first | others := List.mem_append.1 h
    · have := loops_bounds first
      omega
    · have := loopsAll_bounds others
      omega

end

theorem countP_around_loops {s : Statement} {i n : Nat} (out : n < i ∨ i + s.size ≤ n) :
    (s.loops i).countP (Around n) = 0 := by
  rw [List.countP_eq_zero]
  intro l hl around
  have := loops_bounds hl
  have around : l.1 ≤ n ∧ n < l.2 := of_decide_eq_true around
  omega

theorem countP_around_loopsAll {body : List Statement} {i n : Nat} (out : n < i) :
    (loopsAll i body).countP (Around n) = 0 := by
  rw [List.countP_eq_zero]
  intro l hl around
  have := loopsAll_bounds hl
  have around : l.1 ≤ n ∧ n < l.2 := of_decide_eq_true around
  omega

mutual

/-- A node is in no more loops than are nested. -/
theorem countP_around_le (s : Statement) (i n : Nat) :
    (s.loops i).countP (Around n) ≤ s.loopDepth := by
  cases s with
  | skip => exact Nat.le_refl 0
  | assign x e => exact Nat.le_refl 0
  | seq body => exact countP_around_leAll body i n
  | loop c body =>
    rw [loops, List.countP_cons, loopDepth]
    have := countP_around_le body (i + 1) n
    split <;> omega
  | branch c t f =>
    rw [loops, List.countP_append, loopDepth]
    have yes := countP_around_le t (i + 1) n
    have no := countP_around_le f (i + 1 + t.size) n
    by_cases before : n < i + 1 + t.size
    · have := countP_around_loops (s := f) (Or.inl before)
      omega
    · have := countP_around_loops (s := t) (Or.inr (Nat.le_of_not_lt before))
      omega

theorem countP_around_leAll (body : List Statement) (i n : Nat) :
    (loopsAll i body).countP (Around n) ≤ loopDepthAll body := by
  cases body with
  | nil => exact Nat.le_refl 0
  | cons s rest =>
    rw [loopsAll, List.countP_append, loopDepthAll]
    have first := countP_around_le s i n
    have others := countP_around_leAll rest (i + s.size) n
    by_cases before : n < i + s.size
    · have outside : (loopsAll (i + s.size) rest).countP (Around n) = 0 :=
        countP_around_loopsAll before
      omega
    · have := countP_around_loops (s := s) (Or.inr (Nat.le_of_not_lt before))
      omega

end

variable {R : Nat → Nat → Prop} {xs : List (Nat × EdgeKind)} {a b t e : Nat}

mutual

/-- Control goes back, or stays, only to the test of a loop that it is in. -/
theorem Wired.loop_of_back {s : Statement} {i d : Nat} (h : s.Wired R i d)
    (outside : ¬ (i ≤ d ∧ d < i + s.size)) (step : R a b) (le : i ≤ b) (back : b ≤ a)
    (lt : a < i + s.size) : ∃ e, (b, e) ∈ s.loops i ∧ a < e := by
  cases s with
  | skip =>
    simp only [size] at lt outside
    have := (h b).1 ((by omega : a = i) ▸ step)
    omega
  | assign x c =>
    simp only [size] at lt outside
    have := (h b).1 ((by omega : a = i) ▸ step)
    omega
  | seq body => exact WiredAll.loop_of_back h outside step le back lt
  | loop c body =>
    obtain ⟨test, inner⟩ := h
    simp only [size] at lt outside
    by_cases atTest : a = i
    · have := (test b).1 (atTest ▸ step)
      omega
    · cases inner.closed (by omega) (by omega) step with
      | inl inBody =>
        obtain ⟨e, mem, lt⟩ :=
          inner.loop_of_back (by omega) step inBody.1 back (by omega)
        exact ⟨e, List.mem_cons_of_mem _ mem, lt⟩
      | inr toTest => exact ⟨i + 1 + body.size, toTest ▸ List.mem_cons_self, by omega⟩
  | branch c t f =>
    obtain ⟨test, yes, no⟩ := h
    simp only [size] at lt outside
    by_cases atTest : a = i
    · have := (test b).1 (atTest ▸ step)
      have := yes.size_pos
      omega
    · by_cases inYes : a < i + 1 + t.size
      · have := yes.closed (by omega) inYes step
        obtain ⟨e, mem, lt⟩ := yes.loop_of_back (by omega) step (by omega) back inYes
        exact ⟨e, List.mem_append_left _ mem, lt⟩
      · have := no.closed (by omega) (by omega) step
        obtain ⟨e, mem, lt⟩ := no.loop_of_back (by omega) step (by omega) back (by omega)
        exact ⟨e, List.mem_append_right _ mem, lt⟩

theorem WiredAll.loop_of_back {body : List Statement} {i d : Nat} (h : WiredAll R i d body)
    (outside : ¬ (i ≤ d ∧ d < i + sizeAll body)) (step : R a b) (le : i ≤ b) (back : b ≤ a)
    (lt : a < i + sizeAll body) : ∃ e, (b, e) ∈ loopsAll i body ∧ a < e := by
  match body with
  | [] => exact h.elim
  | [s] =>
    rw [sizeAll, sizeAll, Nat.add_zero] at outside lt
    rw [loopsAll, loopsAll, List.append_nil]
    exact Wired.loop_of_back h outside step le back lt
  | s :: t :: rest =>
    obtain ⟨first, others⟩ := h
    have pos := others.size_pos
    rw [sizeAll] at outside lt
    rw [loopsAll]
    by_cases inFirst : a < i + s.size
    · obtain ⟨e, mem, lt⟩ := first.loop_of_back (by omega) step le back inFirst
      exact ⟨e, List.mem_append_left _ mem, lt⟩
    · have := others.closed (by omega) (by omega) step
      obtain ⟨e, mem, lt⟩ := others.loop_of_back (by omega) step (by omega) back (by omega)
      exact ⟨e, List.mem_append_right _ mem, lt⟩

end

mutual

/-- Control enters a loop at its test. -/
theorem Wired.test_of_entry {s : Statement} {i d : Nat} (h : s.Wired R i d)
    (outside : ¬ (i ≤ d ∧ d < i + s.size)) (mem : (t, e) ∈ s.loops i) (le : i ≤ a)
    (lt : a < i + s.size) (step : R a b) (out : ¬ Around a (t, e)) (inside : Around b (t, e)) :
    b = t := by
  cases s with
  | skip => cases mem
  | assign x c => cases mem
  | seq body => exact WiredAll.test_of_entry h outside mem le lt step out inside
  | loop c body =>
    obtain ⟨test, inner⟩ := h
    have pos := inner.size_pos
    simp only [size] at lt outside
    rw [loops, List.mem_cons, Prod.mk.injEq] at mem
    cases mem with
    | inl own =>
      unfold Around at out
      omega
    | inr mem =>
      have bounds := loops_bounds mem
      by_cases atTest : a = i
      · have := (test b).1 (atTest ▸ step)
        unfold Around at inside
        omega
      · exact inner.test_of_entry (by omega) mem (by omega) (by omega) step out inside
  | branch c y n =>
    obtain ⟨test, yes, no⟩ := h
    have posYes := yes.size_pos
    have posNo := no.size_pos
    simp only [size] at lt outside
    cases List.mem_append.1 mem with
    | inl mem =>
      have bounds := loops_bounds mem
      by_cases inYes : i + 1 ≤ a ∧ a < i + 1 + y.size
      · exact yes.test_of_entry (by omega) mem inYes.1 inYes.2 step out inside
      · unfold Around at inside
        by_cases atTest : a = i
        · have := (test b).1 (atTest ▸ step)
          omega
        · have := no.closed (by omega) (by omega) step
          omega
    | inr mem =>
      have bounds := loops_bounds mem
      by_cases inNo : i + 1 + y.size ≤ a
      · exact no.test_of_entry (by omega) mem inNo (by omega) step out inside
      · unfold Around at inside
        by_cases atTest : a = i
        · have := (test b).1 (atTest ▸ step)
          omega
        · have := yes.closed (by omega) (by omega) step
          omega

theorem WiredAll.test_of_entry {body : List Statement} {i d : Nat} (h : WiredAll R i d body)
    (outside : ¬ (i ≤ d ∧ d < i + sizeAll body)) (mem : (t, e) ∈ loopsAll i body) (le : i ≤ a)
    (lt : a < i + sizeAll body) (step : R a b) (out : ¬ Around a (t, e))
    (inside : Around b (t, e)) : b = t := by
  match body with
  | [] => exact h.elim
  | [s] =>
    rw [sizeAll, sizeAll, Nat.add_zero] at outside lt
    rw [loopsAll, loopsAll, List.append_nil] at mem
    exact Wired.test_of_entry h outside mem le lt step out inside
  | s :: y :: rest =>
    obtain ⟨first, others⟩ := h
    have posFirst := first.size_pos
    have pos := others.size_pos
    rw [sizeAll] at outside lt
    rw [loopsAll] at mem
    cases List.mem_append.1 mem with
    | inl mem =>
      have bounds := loops_bounds mem
      by_cases inFirst : a < i + s.size
      · exact first.test_of_entry (by omega) mem le inFirst step out inside
      · have := others.closed (by omega) (by omega) step
        unfold Around at inside
        omega
    | inr mem =>
      have bounds := loopsAll_bounds mem
      by_cases inFirst : a < i + s.size
      · have := first.closed le inFirst step
        unfold Around at inside
        omega
      · exact others.test_of_entry (by omega) mem (by omega) (by omega) step out inside

end

/-- Node `t` is the test of a loop that has node `n` in its body. -/
def ClosesLoop (s : Statement) (n t : Nat) : Prop := ∃ e, (t, e) ∈ s.loops 0 ∧ t < n ∧ n < e

mutual

theorem exits_ne_back (s : Statement) (i : Nat) : ∀ x ∈ s.exits i, x.2 ≠ .back := by
  cases s with
  | skip => simp [exits]
  | assign x e => simp [exits]
  | seq body => exact exitsAll_ne_back body i
  | loop c body => simp [exits]
  | branch c t f =>
    exact List.forall_mem_append.2 ⟨exits_ne_back t (i + 1), exits_ne_back f (i + 1 + t.size)⟩

theorem exitsAll_ne_back (body : List Statement) (i : Nat) :
    ∀ x ∈ exitsAll i body, x.2 ≠ .back := by
  match body with
  | [] => simp [exitsAll]
  | [s] => exact exits_ne_back s i
  | s :: t :: rest => exact exitsAll_ne_back (t :: rest) (i + s.size)

end

/-- The edge leads back and says so, or it leads on. -/
def Directed (e : Edge EdgeKind) : Prop :=
  e.data = .back ∧ e.target < e.source ∨ e.data ≠ .back ∧ e.source < e.target

theorem directed_link {target : Nat} (before : ∀ x ∈ xs, x.1 < target)
    (kinds : ∀ x ∈ xs, x.2 ≠ .back) : ∀ e ∈ link xs target, Directed e :=
  List.forall_mem_map.2 fun x hx => Or.inr ⟨kinds x hx, before x hx⟩

theorem directed_linkBack {test : Nat} (after : ∀ x ∈ xs, test < x.1) :
    ∀ e ∈ linkBack xs test, Directed e :=
  List.forall_mem_map.2 fun x hx => Or.inl ⟨rfl, after x hx⟩

mutual

theorem directed_edges (s : Statement) (i : Nat) : ∀ e ∈ s.edges i, Directed e := by
  cases s with
  | skip => simp [edges]
  | assign x e => simp [edges]
  | seq body => exact directed_edgesAll body i [] (by simp) (by simp)
  | loop c body =>
    have enter : Directed ⟨i, i + 1, .whenTrue⟩ := Or.inr ⟨nofun, Nat.lt_succ_self i⟩
    have back : ∀ x ∈ body.exits (i + 1), i < x.1 := fun x hx => (exits_bounds body (i + 1) x hx).1
    exact List.forall_mem_append.2 ⟨directed_edges body (i + 1),
      List.forall_mem_cons.2 ⟨enter, directed_linkBack back⟩⟩
  | branch c t f =>
    have yes : Directed ⟨i, i + 1, .whenTrue⟩ := Or.inr ⟨nofun, Nat.lt_succ_self i⟩
    have no : Directed ⟨i, i + 1 + t.size, .whenFalse⟩ :=
      Or.inr ⟨nofun, Nat.lt_add_right _ (Nat.lt_succ_self i)⟩
    exact List.forall_mem_append.2 ⟨List.forall_mem_append.2
      ⟨directed_edges t (i + 1), directed_edges f (i + 1 + t.size)⟩, by simp [yes, no]⟩

theorem directed_edgesAll (body : List Statement) (i : Nat) (pending : List (Nat × EdgeKind))
    (before : ∀ x ∈ pending, x.1 < i) (kinds : ∀ x ∈ pending, x.2 ≠ .back) :
    ∀ e ∈ edgesAll i pending body, Directed e := by
  cases body with
  | nil => simp [edgesAll]
  | cons s rest =>
    have first := directed_edges s i
    have others := directed_edgesAll rest (i + s.size) (s.exits i)
      (fun x hx => (exits_bounds s i x hx).2) (exits_ne_back s i)
    exact List.forall_mem_append.2
      ⟨List.forall_mem_append.2 ⟨first, directed_link before kinds⟩, others⟩

end

end Statement
end FlowAnalysis
