import FlowAnalysis.Proofs.GenKill.Drift
import Mathlib.Data.Finset.Prod
import Mathlib.Data.Nat.Find

/-!
Runs of passes whose kinds a schedule chooses. Main statements: of as many passes as there are bits,
and two more, one changes nothing; where runs settle does not depend on their schedules; and no run
settles later than that of Jacobi passes alone.
-/
namespace FlowAnalysis
namespace GenKill

/-- The valuation after `k` passes, the first of the kind `schedule 0`. -/
def sweeps (p : GenKill) (g : FlowGraph) (schedule : Nat → Strategy) (order : List Nat)
    (v : Valuation p.size) : Nat → Valuation p.size
  | 0 => v
  | k + 1 => p.sweep g (schedule k) order (p.sweeps g schedule order v k)

variable {p : GenKill} {g : FlowGraph} {schedule other : Nat → Strategy} {u v w : Valuation p.size}
  {order : List Nat} {n i k l : Nat}

/-- Whether pass `k`, counted from zero, changes any state. -/
def changes (p : GenKill) (g : FlowGraph) (schedule : Nat → Strategy) (order : List Nat)
    (v : Valuation p.size) (k : Nat) : Bool :=
  differs order (p.sweeps g schedule order v k) (p.sweeps g schedule order v (k + 1))

/-- Pass `k`, counted from zero, is the first that changes nothing. -/
structure FirstQuiet (p : GenKill) (g : FlowGraph) (schedule : Nat → Strategy) (order : List Nat)
    (v : Valuation p.size) (k : Nat) : Prop where
  quiet : p.changes g schedule order v k = false
  loud : ∀ l < k, p.changes g schedule order v l = true

/-- The bits before the nodes of the order that have not moved. -/
def resting (p : GenKill) (order : List Nat) (v : Valuation p.size) : Finset (Nat × Nat) :=
  (order.toFinset ×ˢ Finset.range p.size).filter fun (n, i) => ¬ p.Moved (v.before n) i

theorem mem_resting : (n, i) ∈ p.resting order v ↔
    (n ∈ order ∧ i < p.size) ∧ ¬ p.Moved (v.before n) i := by
  simp [resting]

theorem card_resting_le : (p.resting order v).card ≤ order.length * p.size := by
  calc (p.resting order v).card
      ≤ (order.toFinset ×ˢ Finset.range p.size).card := Finset.card_filter_le _ _
    _ = order.toFinset.card * p.size := by rw [Finset.card_product, Finset.card_range]
    _ ≤ order.length * p.size := Nat.mul_le_mul_right _ (List.toFinset_card_le order)

/-- A pass leaves after each node of the order the transfer of the state before it. -/
theorem after_sweep (nodup : order.Nodup) {strategy : Strategy} (hn : n ∈ order) :
    (p.sweep g strategy order v).after n =
      p.transfer n ((p.sweep g strategy order v).before n) := by
  obtain ⟨s, before, after⟩ := sweepFrom_sameAt_image (v := v) (u := v) nodup hn
  exact after.trans (congrArg (p.transfer n) before.symm)

theorem after_sweeps (nodup : order.Nodup) (hn : n ∈ order) :
    (p.sweeps g schedule order v (k + 1)).after n =
      p.transfer n ((p.sweeps g schedule order v (k + 1)).before n) := after_sweep nodup hn

/-- Nodes out of order are left alone. -/
theorem sweeps_sameAt (h : n ∉ order) : (p.sweeps g schedule order v k).SameAt v n := by
  induction k with
  | zero => exact Valuation.sameAt_refl
  | succ k ih => exact (sweepFrom_sameAt h).trans ih

/-- What single evaluations keep, a run keeps. -/
theorem sweeps_induction {P : Valuation p.size → Prop} (begin : P v)
    (keep : ∀ u w n, n ∈ order → P u → P w → P (w.patch n (p.image g u))) :
    P (p.sweeps g schedule order v k) := by
  induction k with
  | zero => exact begin
  | succ k ih => exact sweep_induction ih keep

/-- Of the passes that change nothing, one is the first. -/
theorem firstQuiet_of_quiet (quiet : p.changes g schedule order v k = false) :
    ∃ l ≤ k, p.FirstQuiet g schedule order v l := by
  have some : ∃ k, p.changes g schedule order v k = false := ⟨k, quiet⟩
  refine ⟨Nat.find some, Nat.find_min' some quiet, Nat.find_spec some, fun l lt => ?_⟩
  exact Bool.eq_true_of_not_eq_false (Nat.find_min some lt)

section Run

variable (visits : ∀ n, n ∈ order ↔ g.Participates p.direction n) (nodup : order.Nodup)
  (start : ∀ n i, ¬ p.Moved (v.after n) i)
include visits nodup start

theorem drifting_sweeps (schedule : Nat → Strategy) (k : Nat) :
    p.Drifting g (p.sweeps g schedule order v k) := by
  induction k with
  | zero => exact fun n _ i moved => absurd moved (start n i)
  | succ k ih => exact (sweep_drifts (fun n => (visits n).1) nodup ih).2

theorem exists_seen_sweeps (schedule : Nat → Strategy) (k : Nat) (hn : n ∈ order) :
    ∃ s, (p.sweeps g schedule order v (k + 1)).SameAt (p.image g s) n ∧
      p.Trails (p.sweeps g schedule order v k) s ∧
      p.Trails s (p.sweeps g schedule order v (k + 1)) :=
  exists_seen (fun n => (visits n).1) nodup (drifting_sweeps visits nodup start schedule k) hn

/-- From the first pass on, no bit before a node of the order comes back. -/
theorem moved_before_sweeps (hn : n ∈ order)
    (moved : p.Moved ((p.sweeps g schedule order v (k + 1)).before n) i) :
    p.Moved ((p.sweeps g schedule order v (k + 2)).before n) i := by
  obtain ⟨s, now, -, first⟩ := exists_seen_sweeps visits nodup start schedule k hn
  obtain ⟨t, next, second, -⟩ := exists_seen_sweeps visits nodup start schedule (k + 1) hn
  rw [now.1] at moved
  rw [next.1]
  exact moved_before_image ((visits n).1 hn) (first.trans second) moved

/-- After the first pass, a pass that changes anything moves a bit before a node. -/
theorem card_resting_lt (loud : p.changes g schedule order v (k + 1) = true) :
    (p.resting order (p.sweeps g schedule order v (k + 2))).card <
      (p.resting order (p.sweeps g schedule order v (k + 1))).card := by
  obtain ⟨n, hn, other⟩ : ∃ n ∈ order, ¬ (p.sweeps g schedule order v (k + 1)).SameAt
      (p.sweeps g schedule order v (k + 2)) n := by
    by_contra none
    push Not at none
    rw [changes, differs_eq_false_iff.2 none] at loud
    cases loud
  obtain ⟨i, rests, moved⟩ : ∃ i, ¬ p.Moved ((p.sweeps g schedule order v (k + 1)).before n) i ∧
      p.Moved ((p.sweeps g schedule order v (k + 2)).before n) i := by
    by_contra none
    push Not at none
    have before := ext_moved fun i => ⟨moved_before_sweeps visits nodup start hn,
      fun moved => by_contra fun rests => none i rests moved⟩
    refine other ⟨before, ?_⟩
    exact (after_sweeps nodup hn).trans
      ((congrArg (p.transfer n) before).trans (after_sweeps nodup hn).symm)
  apply Finset.card_lt_card
  rw [Finset.ssubset_iff_of_subset]
  · exact ⟨(n, i), mem_resting.2 ⟨⟨hn, lt_of_moved moved⟩, rests⟩,
      fun still => (mem_resting.1 still).2 moved⟩
  · intro ⟨m, j⟩ rests
    obtain ⟨bounds, rests⟩ := mem_resting.1 rests
    exact mem_resting.2 ⟨bounds, fun moved =>
      rests (moved_before_sweeps visits nodup start bounds.1 moved)⟩

/-- As long as every pass changes something, bits keep moving. -/
theorem card_resting_add_le (loud : ∀ l ≤ k, p.changes g schedule order v l = true) :
    (p.resting order (p.sweeps g schedule order v (k + 1))).card + k ≤ order.length * p.size := by
  induction k with
  | zero => exact card_resting_le
  | succ k ih =>
    have before := ih fun l le => loud l (Nat.le_succ_of_le le)
    have drop := card_resting_lt visits nodup start (loud (k + 1) (Nat.le_refl _))
    change (p.resting order (p.sweeps g schedule order v (k + 2))).card + (k + 1) ≤ _
    omega

/-- Among as many passes as there are bits, and two more, one changes nothing. -/
theorem exists_firstQuiet (schedule : Nat → Strategy) :
    ∃ k ≤ order.length * p.size + 1, p.FirstQuiet g schedule order v k := by
  have quiet : ∃ k ≤ order.length * p.size + 1, p.changes g schedule order v k = false := by
    by_contra none
    push Not at none
    have := card_resting_add_le visits nodup start
      fun l le => Bool.eq_true_of_not_eq_false (none l le)
    omega
  obtain ⟨k, le, quiet⟩ := quiet
  obtain ⟨l, first, quiet⟩ := firstQuiet_of_quiet quiet
  exact ⟨l, first.trans le, quiet⟩

omit start in
theorem FirstQuiet.settled (h : p.FirstQuiet g schedule order v k) :
    p.sweeps g schedule order v (k + 1) = p.sweeps g schedule order v k ∧
      p.Settled g (p.sweeps g schedule order v k) := by
  obtain ⟨whole, settled⟩ := sweep_eq_self nodup (differs_eq_false_iff.1 h.quiet)
  exact ⟨whole, fun n hn => settled n ((visits n).2 hn)⟩

omit nodup in
/-- A run never overtakes a settled valuation. -/
theorem sweeps_trails (hw : p.Settled g w) : p.Trails (p.sweeps g schedule order v k) w := by
  induction k with
  | zero => exact fun n i moved => absurd moved (start n i)
  | succ k ih => exact sweep_trails (fun n => (visits n).1) hw ih

omit nodup in
/-- All runs settle at the same valuation. -/
theorem sweeps_eq_of_settled (first : p.Settled g (p.sweeps g schedule order v k))
    (second : p.Settled g (p.sweeps g other order v l)) :
    p.sweeps g schedule order v k = p.sweeps g other order v l := by
  apply Valuation.ext_sameAt
  intro n
  by_cases hn : n ∈ order
  · exact first.sameAt second (sweeps_trails visits start second)
      (sweeps_trails visits start first) ((visits n).1 hn)
  · exact (sweeps_sameAt hn).trans (sweeps_sameAt hn).symm

/-- A Jacobi pass moves nothing that a pass of another run, which has come as far, does not. -/
theorem moved_sweep_jacobi (h : p.Trails u (p.sweeps g schedule order v k)) (hn : n ∈ order) :
    ∀ i, (p.Moved ((p.sweep g .jacobi order u).before n) i →
        p.Moved ((p.sweeps g schedule order v (k + 1)).before n) i) ∧
      (p.Moved ((p.sweep g .jacobi order u).after n) i →
        p.Moved ((p.sweeps g schedule order v (k + 1)).after n) i) := by
  obtain ⟨pre, post, rfl⟩ := List.append_of_mem hn
  have here : (p.sweep g .jacobi (pre ++ n :: post) u).SameAt (p.image g u) n :=
    sweep_sameAt_image nodup
  obtain ⟨s, there, seen, -⟩ := exists_seen_sweeps visits nodup start schedule k hn
  intro i
  rw [here.1, here.2, there.1, there.2]
  exact ⟨moved_before_image ((visits n).1 hn) (h.trans seen),
    moved_after_image ((visits n).1 hn) (h.trans seen)⟩

/-- No run is behind that of Jacobi passes alone. -/
theorem jacobi_trails (schedule : Nat → Strategy) (k : Nat) :
    p.Trails (p.sweeps g (fun _ => .jacobi) order v k) (p.sweeps g schedule order v k) := by
  induction k with
  | zero => exact trails_refl
  | succ k ih =>
    intro n i moved
    by_cases hn : n ∈ order
    · exact (moved_sweep_jacobi visits nodup start ih hn i).2 moved
    · rw [(sweeps_sameAt hn).2] at moved
      exact absurd moved (start n i)

/-- When Jacobi passes alone have settled, so has any run of as many passes. -/
theorem sweeps_eq_of_jacobi (schedule : Nat → Strategy)
    (settled : p.Settled g (p.sweeps g (fun _ => .jacobi) order v k)) :
    p.sweeps g schedule order v k = p.sweeps g (fun _ => .jacobi) order v k := by
  cases k with
  | zero => rfl
  | succ k =>
    apply Valuation.ext_sameAt
    intro n
    by_cases hn : n ∈ order
    · have part := (visits n).1 hn
      obtain ⟨s, there, -, seen⟩ := exists_seen_sweeps visits nodup start schedule k hn
      have slow := moved_sweep_jacobi visits nodup start
        (jacobi_trails visits nodup start schedule k) hn
      constructor
      · refine ext_moved fun i => ⟨fun moved => ?_, (slow i).1⟩
        rw [there.1] at moved
        rw [(settled n part).1]
        exact moved_before_image part (seen.trans (sweeps_trails visits start settled)) moved
      · exact ext_moved fun i => ⟨sweeps_trails visits start settled n i, (slow i).2⟩
    · exact (sweeps_sameAt hn).trans (sweeps_sameAt hn).symm

/-- No run settles later than that of Jacobi passes alone. -/
theorem FirstQuiet.le_jacobi (h : p.FirstQuiet g schedule order v k)
    (slow : p.FirstQuiet g (fun _ => .jacobi) order v l) : k ≤ l := by
  obtain ⟨-, settled⟩ := slow.settled visits nodup
  have reached := sweeps_eq_of_jacobi visits nodup start schedule settled
  have quiet : p.changes g schedule order v l = false := by
    refine differs_eq_false_iff.2 fun n _ => ?_
    rw [sweeps, reached, settled.sweep_eq fun n => (visits n).1]
    exact Valuation.sameAt_refl
  apply Nat.le_of_not_lt
  intro lt
  have loud := h.loud l lt
  rw [quiet] at loud
  cases loud

end Run

end GenKill
end FlowAnalysis
