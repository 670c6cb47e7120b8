import FlowAnalysis.Proofs.GenKill.Valuation
import FlowAnalysis.Solver

/-!
Sweeps: passes of either kind on valuations. Main statements: a pass on the cells of a valuation
never faults, it leaves the cells of the swept valuation, and its flag says whether they differ.
-/
namespace FlowAnalysis

theorem mapM_eq_pure {m : Type → Type} [Monad m] [LawfulMonad m] {α β : Type} {f : α → m β}
    {h : α → β} {xs : List α} (all : ∀ x ∈ xs, f x = pure (h x)) :
    xs.mapM f = pure (xs.map h) := by
  induction xs with
  | nil => rfl
  | cons x xs ih =>
    have rest := ih fun y hy => all y (List.mem_cons_of_mem _ hy)
    rw [List.mapM_cons, all x List.mem_cons_self, rest]
    simp only [pure_bind, List.map_cons]

/-- Of the valuation before a pass and the one reached so far, the one that an evaluation sees. -/
def Strategy.sees {α : Type} : Strategy → α → α → α
  | gaussSeidel, _, now => now
  | jacobi, start, _ => start

namespace Valuation

variable {size count : Nat} {u v w : Valuation size} {n : Nat}

/-- The states at node `n`. -/
def cell (v : Valuation size) (n : Nat) : Cell := ⟨.ofBits (v.before n), .ofBits (v.after n)⟩

def cells (v : Valuation size) (count : Nat) : Array Cell :=
  Array.ofFn fun n : Fin count => v.cell n

theorem cell_eq_iff : v.cell n = w.cell n ↔ v.SameAt w n := by
  simp [cell, SameAt]

@[simp] theorem read_cells (h : n < count) : Cell.read (v.cells count) n = v.cell n := by
  simp [Cell.read, cells, Array.getD, h]

theorem cells_patch : (v.patch n w).cells count = (v.cells count).setIfInBounds n (w.cell n) := by
  apply Array.ext
  · simp [cells]
  · intro m hm hm'
    rw [Array.getElem_setIfInBounds (by simpa using hm')]
    simp only [cells, Array.getElem_ofFn]
    split
    next same =>
      subst same
      exact cell_eq_iff.2 patch_sameAt
    next other => exact cell_eq_iff.2 (patch_sameAt_of_ne (Ne.symm other))

theorem record_cells {changed : Bool} (h : n < count) :
    Cell.record (v.cells count, changed) n (w.cell n) =
      ((v.patch n w).cells count, changed || v.cell n != w.cell n) := by
  rw [Cell.record, read_cells h, cells_patch]

end Valuation

namespace GenKill

variable {p : GenKill} {g : FlowGraph} {strategy : Strategy} {u v w : Valuation p.size}
  {order : List Nat} {n : Nat}

theorem sourceStates_cells :
    p.sourceStates g (v.cells g.nodeCount) n = .ok ((g.sources p.direction n).map v.after) := by
  apply mapM_eq_pure
  intro m hm
  have feeds : g.Feeds p.direction m n := hm
  rw [Valuation.read_cells feeds.lt.1]
  exact BitSet.within_ofBits _

/-- The evaluation of a node never faults. -/
theorem evaluate_cells (h : n < g.nodeCount) :
    p.evaluate g (v.cells g.nodeCount) n = .ok ((p.image g v).cell n) := by
  unfold evaluate Valuation.cell image inState
  rw [sourceStates_cells]
  simp only [bind, Except.bind]
  cases p.inflow g n ((g.sources p.direction n).map v.after) with
  | nil =>
    simp only [Valuation.read_cells h, Valuation.cell, BitSet.within_ofBits]
    rfl
  | cons x xs => rfl

/-- What remains of a pass from `v` that has reached `u`, with `order` still to be evaluated. -/
def sweepFrom (p : GenKill) (g : FlowGraph) (strategy : Strategy) (v : Valuation p.size)
    (order : List Nat) (u : Valuation p.size) : Valuation p.size :=
  order.foldl (fun u n => u.patch n (p.image g (strategy.sees v u))) u

/-- A pass over `order`. -/
def sweep (p : GenKill) (g : FlowGraph) (strategy : Strategy) (order : List Nat)
    (v : Valuation p.size) : Valuation p.size :=
  p.sweepFrom g strategy v order v

theorem sweepFrom_cons : p.sweepFrom g strategy v (n :: order) u =
    p.sweepFrom g strategy v order (u.patch n (p.image g (strategy.sees v u))) := rfl

/-- Nodes out of order are left alone. -/
theorem sweepFrom_sameAt (h : n ∉ order) : (p.sweepFrom g strategy v order u).SameAt u n := by
  induction order generalizing u with
  | nil => exact Valuation.sameAt_refl
  | cons m order ih =>
    rw [List.mem_cons, not_or] at h
    exact (ih h.2).trans (Valuation.patch_sameAt_of_ne h.1)

/-- What single evaluations keep, a pass keeps. -/
theorem sweep_induction {P : Valuation p.size → Prop} (start : P v)
    (keep : ∀ u w n, n ∈ order → P u → P w → P (w.patch n (p.image g u))) :
    P (p.sweep g strategy order v) := by
  have rest : ∀ (ns : List Nat), (∀ n ∈ ns, n ∈ order) → ∀ u, P u →
      P (p.sweepFrom g strategy v ns u) := by
    intro ns
    induction ns with
    | nil => exact fun _ u hu => hu
    | cons n ns ih =>
      intro sub u hu
      rw [sweepFrom_cons]
      apply ih fun m hm => sub m (List.mem_cons_of_mem _ hm)
      apply keep _ _ _ (sub n List.mem_cons_self) _ hu
      cases strategy with
      | gaussSeidel => exact hu
      | jacobi => exact start
  exact rest order (fun _ h => h) v start

/-- In the rest of a pass each node of the order is evaluated from some valuation. -/
theorem sweepFrom_sameAt_image (nodup : order.Nodup) (h : n ∈ order) :
    ∃ s, (p.sweepFrom g strategy v order u).SameAt (p.image g s) n := by
  induction order generalizing u with
  | nil => cases h
  | cons m order ih =>
    obtain ⟨fresh, nodup⟩ := List.nodup_cons.1 nodup
    rw [sweepFrom_cons]
    cases List.mem_cons.1 h with
    | inl same =>
      subst same
      exact ⟨strategy.sees v u, (sweepFrom_sameAt fresh).trans Valuation.patch_sameAt⟩
    | inr later => exact ih nodup later

/-- Whether two valuations differ at a node of the order. -/
def differs (order : List Nat) (v w : Valuation p.size) : Bool :=
  order.any fun n => v.cell n != w.cell n

theorem differs_eq_false_iff : differs order v w = false ↔ ∀ n ∈ order, v.SameAt w n := by
  simp [differs, Valuation.cell_eq_iff]

/-- The flag of a pass, one evaluation further. -/
theorem differs_cons (fresh : n ∉ order) :
    differs (n :: order) u (p.sweepFrom g strategy v order (u.patch n w)) =
      (u.cell n != w.cell n ||
        differs order (u.patch n w) (p.sweepFrom g strategy v order (u.patch n w))) := by
  have here : (p.sweepFrom g strategy v order (u.patch n w)).cell n = w.cell n :=
    Valuation.cell_eq_iff.2 ((sweepFrom_sameAt fresh).trans Valuation.patch_sameAt)
  have there : ∀ m ∈ order, (u.patch n w).cell m = u.cell m := by
    intro m hm
    apply Valuation.cell_eq_iff.2
    apply Valuation.patch_sameAt_of_ne
    rintro rfl
    exact fresh hm
  rw [differs, List.any_cons, here, differs]
  congr 1
  rw [Bool.eq_iff_iff, List.any_eq_true, List.any_eq_true]
  refine exists_congr fun m => and_congr_right fun hm => ?_
  rw [there m hm]

theorem foldlM_gaussSeidel {changed : Bool} (valid : ∀ n ∈ order, n < g.nodeCount)
    (nodup : order.Nodup) :
    order.foldlM (fun acc n => do return Cell.record acc n (← p.evaluate g acc.1 n))
        (u.cells g.nodeCount, changed) =
      .ok ((p.sweepFrom g .gaussSeidel v order u).cells g.nodeCount,
        changed || differs order u (p.sweepFrom g .gaussSeidel v order u)) := by
  induction order generalizing u changed with
  | nil => simp [sweepFrom, differs, pure, Except.pure]
  | cons n order ih =>
    obtain ⟨fresh, nodup⟩ := List.nodup_cons.1 nodup
    have lt := valid n List.mem_cons_self
    rw [List.foldlM_cons, evaluate_cells lt]
    change order.foldlM (fun acc n => do return Cell.record acc n (← p.evaluate g acc.1 n))
        (Cell.record (u.cells g.nodeCount, changed) n ((p.image g u).cell n)) = _
    rw [Valuation.record_cells lt, ih (fun m hm => valid m (List.mem_cons_of_mem _ hm)) nodup,
      sweepFrom_cons, differs_cons fresh, Bool.or_assoc]
    rfl

theorem foldl_jacobi {changed : Bool} (valid : ∀ n ∈ order, n < g.nodeCount)
    (nodup : order.Nodup) :
    order.foldl (fun acc n => Cell.record acc n ((p.image g v).cell n))
        (u.cells g.nodeCount, changed) =
      ((p.sweepFrom g .jacobi v order u).cells g.nodeCount,
        changed || differs order u (p.sweepFrom g .jacobi v order u)) := by
  induction order generalizing u changed with
  | nil => simp [sweepFrom, differs]
  | cons n order ih =>
    obtain ⟨fresh, nodup⟩ := List.nodup_cons.1 nodup
    rw [List.foldl_cons, Valuation.record_cells (valid n List.mem_cons_self),
      ih (fun m hm => valid m (List.mem_cons_of_mem _ hm)) nodup, sweepFrom_cons,
      differs_cons fresh, Bool.or_assoc]
    rfl

theorem gaussSeidelPass_cells (valid : ∀ n ∈ order, n < g.nodeCount) (nodup : order.Nodup) :
    p.gaussSeidelPass g order (v.cells g.nodeCount) =
      .ok ((p.sweep g .gaussSeidel order v).cells g.nodeCount,
        differs order v (p.sweep g .gaussSeidel order v)) := by
  rw [gaussSeidelPass, foldlM_gaussSeidel (v := v) valid nodup, Bool.false_or]
  rfl

theorem jacobiPass_cells (valid : ∀ n ∈ order, n < g.nodeCount) (nodup : order.Nodup) :
    p.jacobiPass g order (v.cells g.nodeCount) =
      .ok ((p.sweep g .jacobi order v).cells g.nodeCount,
        differs order v (p.sweep g .jacobi order v)) := by
  have updates : (order.mapM fun n => do return (n, ← p.evaluate g (v.cells g.nodeCount) n)) =
      Except.ok (order.map fun n => (n, (p.image g v).cell n)) := by
    apply mapM_eq_pure
    intro n hn
    rw [evaluate_cells (valid n hn)]
    rfl
  rw [jacobiPass, updates]
  simp only [bind, Except.bind, pure, Except.pure, List.foldl_map]
  rw [foldl_jacobi valid nodup, Bool.false_or]
  rfl

/-- A pass that changes nothing finds every node of the order as its evaluation leaves it. -/
theorem sweep_eq_self (nodup : order.Nodup)
    (same : ∀ n ∈ order, v.SameAt (p.sweep g strategy order v) n) :
    p.sweep g strategy order v = v ∧ ∀ n ∈ order, v.SameAt (p.image g v) n := by
  unfold sweep at same ⊢
  induction order with
  | nil => exact ⟨rfl, fun n hn => by cases hn⟩
  | cons n order ih =>
    obtain ⟨fresh, nodup⟩ := List.nodup_cons.1 nodup
    have sees : strategy.sees v v = v := by cases strategy <;> rfl
    rw [sweepFrom_cons, sees] at same ⊢
    have here : v.SameAt (p.image g v) n :=
      ((same n List.mem_cons_self).trans (sweepFrom_sameAt fresh)).trans Valuation.patch_sameAt
    rw [Valuation.patch_of_sameAt here] at same ⊢
    obtain ⟨whole, rest⟩ := ih nodup fun m hm => same m (List.mem_cons_of_mem _ hm)
    refine ⟨whole, fun m hm => ?_⟩
    cases List.mem_cons.1 hm with
    | inl eq => exact eq ▸ here
    | inr later => exact rest m later

end GenKill
end FlowAnalysis
