import FlowAnalysis.Proofs.GenKill.Run

/-!
Squeezed runs. Main statements: passes are monotone, so a run that starts between the start of
another one and the valuation where that one settles is there when the other is, or a pass later.
-/
namespace FlowAnalysis
namespace GenKill

variable {p : GenKill} {g : FlowGraph} {strategy : Strategy} {schedule : Nat → Strategy}
  {u v w x y : Valuation p.size} {order : List Nat} {n k l : Nat}

theorem Trails.sweepFrom (visits : ∀ n ∈ order, g.Participates p.direction n)
    (start : p.Trails u v) (now : p.Trails x y) :
    p.Trails (p.sweepFrom g strategy u order x) (p.sweepFrom g strategy v order y) := by
  refine List.foldl_rel now fun n hn x y now => ?_
  have seen : p.Trails (strategy.sees u x) (strategy.sees v y) := by
    cases strategy with
    | gaussSeidel => exact now
    | jacobi => exact start
  intro m i moved
  by_cases same : m = n
  · subst same
    rw [Valuation.patch_sameAt.2] at moved ⊢
    exact moved_after_image (visits m hn) seen moved
  · rw [(Valuation.patch_sameAt_of_ne same).2] at moved ⊢
    exact now m i moved

/-- Passes are monotone. -/
theorem Trails.sweep (visits : ∀ n ∈ order, g.Participates p.direction n) (h : p.Trails u v) :
    p.Trails (p.sweep g strategy order u) (p.sweep g strategy order v) :=
  h.sweepFrom visits h

theorem Trails.sweeps (visits : ∀ n ∈ order, g.Participates p.direction n) (h : p.Trails u v)
    (schedule : Nat → Strategy) (k : Nat) :
    p.Trails (p.sweeps g schedule order u k) (p.sweeps g schedule order v k) := by
  induction k with
  | zero => exact h
  | succ k ih => exact ih.sweep visits

/-- A pass from a valuation that evaluation cannot tell from a settled one ends there. -/
theorem Settled.sweep_sameAt (visits : ∀ n ∈ order, g.Participates p.direction n)
    (nodup : order.Nodup) (hw : p.Settled g w) (uw : p.Trails u w) (wu : p.Trails w u)
    (hn : n ∈ order) : (p.sweep g strategy order u).SameAt w n := by
  have part := visits n hn
  obtain ⟨pre, post, rfl⟩ := List.append_of_mem hn
  have early : ∀ m ∈ pre, g.Participates p.direction m := fun m hm =>
    visits m (List.mem_append_left _ hm)
  have stays : p.sweep g strategy pre w = w := hw.sweep_eq early
  have behind : p.Trails (p.sweep g strategy pre u) (p.sweep g strategy pre w) := uw.sweep early
  have ahead : p.Trails (p.sweep g strategy pre w) (p.sweep g strategy pre u) := wu.sweep early
  rw [stays] at behind ahead
  have seen : (p.image g (strategy.sees u (p.sweep g strategy pre u))).SameAt (p.image g w) n := by
    cases strategy with
    | gaussSeidel => exact image_sameAt_of_trails part behind ahead
    | jacobi => exact image_sameAt_of_trails part uw wu
  exact (sweep_sameAt_image nodup).trans (seen.trans (hw n part).symm)

section Run

variable (visits : ∀ n, n ∈ order ↔ g.Participates p.direction n) (nodup : order.Nodup)
include visits nodup

/-- After a pass that changes nothing, no pass changes anything. -/
theorem FirstQuiet.sweeps_eq (h : p.FirstQuiet g schedule order v k) (le : k ≤ l) :
    p.sweeps g schedule order v l = p.sweeps g schedule order v k := by
  obtain ⟨-, settled⟩ := h.settled visits nodup
  induction l, le using Nat.le_induction with
  | base => rfl
  | succ l _ ih => rw [sweeps, ih, settled.sweep_eq fun n => (visits n).1]

/-- A run that starts behind the valuation where another run settles settles there too, at most a
pass later. -/
theorem FirstQuiet.squeeze (start : ∀ n i, ¬ p.Moved (v.after n) i)
    (h : p.FirstQuiet g schedule order v k)
    (behind : p.Trails w (p.sweeps g schedule order v k))
    (idle : ∀ n ∉ order, w.SameAt (p.sweeps g schedule order v k) n) :
    ∃ l ≤ k + 1, p.FirstQuiet g schedule order w l ∧
      p.sweeps g schedule order w l = p.sweeps g schedule order v k := by
  obtain ⟨-, settled⟩ := h.settled visits nodup
  generalize goal : p.sweeps g schedule order v k = f at *
  have part : ∀ n ∈ order, g.Participates p.direction n := fun n => (visits n).1
  -- the run from `w` stays between the run from `v` and the valuation where that one settles; its
  -- own passes may move bits either way
  have upper : ∀ j, p.Trails (p.sweeps g schedule order w j) f := by
    intro j
    induction j with
    | zero => exact behind
    | succ j ih => exact sweep_trails part settled ih
  have lower : p.Trails f (p.sweeps g schedule order w k) := by
    have first : p.Trails v w := fun n i moved => absurd moved (start n i)
    exact goal ▸ first.sweeps part schedule k
  have reached : p.sweeps g schedule order w (k + 1) = f := by
    apply Valuation.ext_sameAt
    intro n
    by_cases hn : n ∈ order
    · exact settled.sweep_sameAt part nodup (upper k) lower hn
    · exact (sweeps_sameAt hn).trans (idle n hn)
  have stays : p.sweeps g schedule order w (k + 2) = f :=
    (congrArg (p.sweep g (schedule (k + 1)) order) reached).trans (settled.sweep_eq part)
  have quiet : p.changes g schedule order w (k + 1) = false := by
    refine differs_eq_false_iff.2 fun n _ => ?_
    rw [reached, stays]
    exact Valuation.sameAt_refl
  obtain ⟨l, le, first⟩ := firstQuiet_of_quiet quiet
  exact ⟨l, le, first, (first.sweeps_eq visits nodup le).symm.trans reached⟩

end Run

end GenKill
end FlowAnalysis
