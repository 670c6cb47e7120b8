import FlowAnalysis.Proofs.Statement.Wiring
import FlowAnalysis.Proofs.Walk

/-!
Traces: the orders in which control can pass the points of a statement, by the form of the statement
alone. Main statement: where a statement is wired, the walks through it are its traces.
-/
namespace FlowAnalysis
namespace Statement

mutual

/-- Control can pass the points of a statement in the order `w`, if they are numbered from `n` in
program order. -/
def Trace (n : Nat) : Statement → List Nat → Prop
  | skip, w => w = [n]
  | assign _ _, w => w = [n]
  | seq body, w => TraceAll n body w
  | loop _ body, w =>
    ∃ vs : List (List Nat), (∀ v ∈ vs, body.Trace (n + 1) v) ∧ w = vs.flatMap (n :: ·) ++ [n]
  | branch _ t f, w => ∃ v, (t.Trace (n + 1) v ∨ f.Trace (n + 1 + t.size) v) ∧ w = n :: v

/-- The members of a sequence are passed in order. -/
def TraceAll (n : Nat) : List Statement → List Nat → Prop
  | [], w => w = []
  | s :: rest, w => ∃ u v, s.Trace n u ∧ TraceAll (n + s.size) rest v ∧ w = u ++ v

end

variable {R : Nat → Nat → Prop}

mutual

/-- Each trace is a walk through the statement. -/
theorem Wired.walk_of_trace {s : Statement} {i d : Nat} {w : List Nat} (h : s.Wired R i d)
    (trace : s.Trace i w) : Walk R i w d := by
  cases s with
  | skip =>
    obtain rfl : w = [i] := trace
    exact Walk.single ((h d).2 rfl)
  | assign x e =>
    obtain rfl : w = [i] := trace
    exact Walk.single ((h d).2 rfl)
  | seq body => exact WiredAll.walk_of_trace h trace
  | loop c body =>
    obtain ⟨test, inner⟩ := h
    obtain ⟨vs, rounds, rfl⟩ := trace
    induction vs with
    | nil => exact Walk.single ((test d).2 (Or.inr rfl))
    | cons v vs ih =>
      obtain ⟨round, rounds⟩ := List.forall_mem_cons.1 rounds
      rw [List.flatMap_cons, List.append_assoc]
      have once := Walk.cons ((test (i + 1)).2 (Or.inl rfl)) (inner.walk_of_trace round)
      exact once.append (ih rounds)
  | branch c t f =>
    obtain ⟨test, yes, no⟩ := h
    obtain ⟨v, trace, rfl⟩ := trace
    cases trace with
    | inl trace => exact Walk.cons ((test _).2 (Or.inl rfl)) (yes.walk_of_trace trace)
    | inr trace => exact Walk.cons ((test _).2 (Or.inr rfl)) (no.walk_of_trace trace)

theorem WiredAll.walk_of_trace {body : List Statement} {i d : Nat} {w : List Nat}
    (h : WiredAll R i d body) (trace : TraceAll i body w) : Walk R i w d := by
  match body with
  | [] => exact h.elim
  | [s] =>
    obtain ⟨u, v, first, rfl, rfl⟩ := trace
    simpa using Wired.walk_of_trace h first
  | s :: t :: rest =>
    obtain ⟨first, others⟩ := h
    obtain ⟨u, v, traceFirst, traceOthers, rfl⟩ := trace
    exact (first.walk_of_trace traceFirst).append (others.walk_of_trace traceOthers)

end

/-- A walk through a wired statement that ends elsewhere leaves it by a walk to what comes next. -/
theorem Wired.split_walk {s : Statement} {i d b : Nat} {ns : List Nat} (h : s.Wired R i d)
    (walk : Walk R i ns b) (outside : ¬ (i ≤ b ∧ b < i + s.size))
    (apart : ¬ (i ≤ d ∧ d < i + s.size)) :
    ∃ ms rest, ns = ms ++ rest ∧ Walk R i ms d ∧ d ∉ ms ∧ Walk R d rest b := by
  have inside : i ≤ i ∧ i < i + s.size := ⟨Nat.le_refl i, Nat.lt_add_of_pos_right h.size_pos⟩
  obtain ⟨ms, m, c, rest, rfl, first, all, last, step, out, second⟩ :=
    walk.firstOutside (P := fun n => i ≤ n ∧ n < i + s.size) inside outside
  obtain rfl : c = d := (h.closed last.1 last.2 step).resolve_left out
  exact ⟨ms, rest, rfl, first, fun mem => apart (all c mem), second⟩

theorem trace_point_of_walk {i d : Nat} {ns : List Nat} (h : ∀ b, R i b ↔ b = d) (outside : d ≠ i)
    (walk : Walk R i ns d) (first : d ∉ ns) : ns = [i] := by
  cases ns with
  | nil => exact absurd (Walk.nil_iff.1 walk) outside
  | cons n ns =>
    obtain ⟨rfl, b, next, rest⟩ := Walk.cons_iff.1 walk
    obtain rfl := (h b).1 next
    cases ns with
    | nil => rfl
    | cons m ns =>
      obtain ⟨rfl, -⟩ := Walk.cons_iff.1 rest
      exact absurd (List.mem_cons_of_mem _ List.mem_cons_self) first

/-- A walk through a loop makes rounds, if those through its body are traces. -/
theorem trace_loop_of_walk {c : Expr} {body : Statement} {i d : Nat} {ns : List Nat}
    (h : (loop c body).Wired R i d)
    (rounds : ∀ ms, Walk R (i + 1) ms i → i ∉ ms → body.Trace (i + 1) ms)
    (outside : ¬ (i ≤ d ∧ d < i + (loop c body).size)) (walk : Walk R i ns d) (first : d ∉ ns) :
    (loop c body).Trace i ns := by
  induction len : ns.length using Nat.strongRecOn generalizing ns with
  | ind k ih =>
    obtain ⟨test, inner⟩ := h
    rw [size] at outside
    cases ns with
    | nil =>
      obtain rfl := Walk.nil_iff.1 walk
      omega
    | cons n ns =>
      obtain ⟨rfl, b, next, rest⟩ := Walk.cons_iff.1 walk
      rw [List.mem_cons, not_or] at first
      obtain rfl | rfl := (test b).1 next
      · obtain ⟨ms, post, rfl, round, away, again⟩ :=
          inner.split_walk rest (by omega) (by omega)
        rw [List.mem_append, not_or] at first
        have shorter : post.length < k := by
          simp only [List.length_cons, List.length_append] at len
          omega
        obtain ⟨vs, traces, rfl⟩ := ih _ shorter again first.2.2 rfl
        refine ⟨ms :: vs, List.forall_mem_cons.2 ⟨rounds ms round away, traces⟩, ?_⟩
        rw [List.flatMap_cons, List.append_assoc]
        rfl
      · cases ns with
        | nil => exact ⟨[], by simp, rfl⟩
        | cons m ns =>
          obtain ⟨rfl, -⟩ := Walk.cons_iff.1 rest
          exact absurd List.mem_cons_self first.2

mutual

/-- A walk through a wired statement that stops when it first comes to what follows is a trace. -/
theorem Wired.trace_of_walk {s : Statement} {i d : Nat} {ns : List Nat} (h : s.Wired R i d)
    (outside : ¬ (i ≤ d ∧ d < i + s.size)) (walk : Walk R i ns d) (first : d ∉ ns) :
    s.Trace i ns := by
  cases s with
  | skip => exact trace_point_of_walk h (by simp only [size] at outside; omega) walk first
  | assign x e => exact trace_point_of_walk h (by simp only [size] at outside; omega) walk first
  | seq body => exact WiredAll.trace_of_walk h outside walk first
  | loop c body =>
    refine trace_loop_of_walk h (fun ms round away => ?_) outside walk first
    exact h.2.trace_of_walk (by omega) round away
  | branch c t f =>
    obtain ⟨test, yes, no⟩ := h
    rw [size] at outside
    cases ns with
    | nil =>
      obtain rfl := Walk.nil_iff.1 walk
      omega
    | cons n ns =>
      obtain ⟨rfl, b, next, rest⟩ := Walk.cons_iff.1 walk
      have later : d ∉ ns := fun mem => first (List.mem_cons_of_mem _ mem)
      obtain rfl | rfl := (test b).1 next
      · exact ⟨ns, Or.inl (yes.trace_of_walk (by omega) rest later), rfl⟩
      · exact ⟨ns, Or.inr (no.trace_of_walk (by omega) rest later), rfl⟩

theorem WiredAll.trace_of_walk {body : List Statement} {i d : Nat} {ns : List Nat}
    (h : WiredAll R i d body) (outside : ¬ (i ≤ d ∧ d < i + sizeAll body))
    (walk : Walk R i ns d) (first : d ∉ ns) : TraceAll i body ns := by
  match body with
  | [] => exact h.elim
  | [s] =>
    have trace := Wired.trace_of_walk h (by simpa [sizeAll] using outside) walk first
    exact ⟨ns, [], trace, rfl, (List.append_nil ns).symm⟩
  | s :: t :: rest =>
    obtain ⟨head, others⟩ := h
    have pos := others.size_pos
    rw [sizeAll] at outside
    obtain ⟨ms, post, rfl, walkHead, away, walkOthers⟩ :=
      head.split_walk walk (by omega) (by omega)
    rw [List.mem_append, not_or] at first
    exact ⟨ms, post, head.trace_of_walk (by omega) walkHead away,
      others.trace_of_walk (by omega) walkOthers first.2, rfl⟩

end

end Statement
end FlowAnalysis
