import FlowAnalysis.Proofs.GenKill.Sweep

/-!
Drift: whatever a problem starts from, each bit after a node leaves the initial value at most once
and never comes back, under passes of any kind. Main statements: what an evaluation sees lies
between the valuations before and after its pass, and no pass overtakes a settled valuation.
-/
namespace FlowAnalysis
namespace GenKill

variable {p : GenKill} {g : FlowGraph} {strategy : Strategy} {s u v w : Valuation p.size}
  {order pre post : List Nat} {n i : Nat}

/-- Bit `i` of `x` is not that of the initial value. -/
def Moved (p : GenKill) (x : BitVec p.size) (i : Nat) : Prop :=
  x.getLsbD i ≠ p.initial.getLsbD i

instance (x : BitVec p.size) : Decidable (p.Moved x i) := inferInstanceAs (Decidable (_ ≠ _))

@[simp] theorem not_moved_initial : ¬ p.Moved p.initial i := fun h => h rfl

theorem lt_of_moved {x : BitVec p.size} (h : p.Moved x i) : i < p.size := by
  apply Nat.lt_of_not_le
  intro le
  apply h
  rw [BitVec.getLsbD_of_ge _ _ le, BitVec.getLsbD_of_ge _ _ le]

theorem ext_moved {x y : BitVec p.size} (h : ∀ i, p.Moved x i ↔ p.Moved y i) : x = y := by
  apply BitVec.eq_of_getLsbD_eq
  intro i _
  have same := h i
  unfold Moved at same
  cases hx : x.getLsbD i <;> cases hy : y.getLsbD i <;> simp_all

theorem moved_iff_tells (top : p.initial = p.confluence.top p.size) {x : BitVec p.size} :
    p.Moved x i ↔ p.confluence.Tells x i := by
  rw [Moved, Confluence.Tells, top]

/-- A bit that starts at the top has moved when it tells, any other when it does not. -/
theorem moved_iff_tells_or (p : GenKill) (i : Nat) :
    (∀ x, p.Moved x i ↔ p.confluence.Tells x i) ∨
      ∀ x, p.Moved x i ↔ ¬ p.confluence.Tells x i := by
  unfold Moved Confluence.Tells
  by_cases top : p.initial.getLsbD i = (p.confluence.top p.size).getLsbD i
  · exact Or.inl fun x => by rw [top]
  · refine Or.inr fun x => ?_
    cases hx : x.getLsbD i <;> cases ht : (p.confluence.top p.size).getLsbD i <;>
      cases hi : p.initial.getLsbD i <;> simp_all

theorem moved_transfer_mono {x y : BitVec p.size} (h : p.Moved x i → p.Moved y i)
    (moved : p.Moved (p.transfer n x) i) : p.Moved (p.transfer n y) i := by
  cases p.moved_iff_tells_or i with
  | inl same =>
    simp only [same] at h moved ⊢
    exact tells_transfer_mono h moved
  | inr opposite =>
    simp only [opposite] at h moved ⊢
    exact fun told => moved (tells_transfer_mono (not_imp_not.1 h) told)

theorem tells_inState_mono (hn : g.Participates p.direction n)
    (h : ∀ m, p.confluence.Tells (v.after m) i → p.confluence.Tells (w.after m) i)
    (told : p.confluence.Tells (p.inState g v n) i) : p.confluence.Tells (p.inState g w n) i := by
  rw [tells_inState] at told ⊢
  obtain start | ⟨m, feeds, told⟩ | ⟨⟨inner, starved⟩, -⟩ := told
  · exact Or.inl start
  · exact Or.inr (Or.inl ⟨m, feeds, h m told⟩)
  · exact absurd starved (hn.fed.resolve_left inner)

theorem moved_inState_mono (hn : g.Participates p.direction n)
    (h : ∀ m, p.Moved (v.after m) i → p.Moved (w.after m) i)
    (moved : p.Moved (p.inState g v n) i) : p.Moved (p.inState g w n) i := by
  cases p.moved_iff_tells_or i with
  | inl same =>
    simp only [same] at h moved ⊢
    exact tells_inState_mono hn h moved
  | inr opposite =>
    simp only [opposite] at h moved ⊢
    exact fun told => moved (tells_inState_mono hn (fun m => not_imp_not.1 (h m)) told)

/-- What has moved after a node in `v` has moved there in `w`. -/
def Trails (p : GenKill) (v w : Valuation p.size) : Prop :=
  ∀ n i, p.Moved (v.after n) i → p.Moved (w.after n) i

theorem trails_refl : p.Trails v v := fun _ _ => id

theorem Trails.trans (h : p.Trails u v) (k : p.Trails v w) : p.Trails u w :=
  fun n i moved => k n i (h n i moved)

theorem moved_before_image (hn : g.Participates p.direction n) (h : p.Trails v w)
    (moved : p.Moved ((p.image g v).before n) i) : p.Moved ((p.image g w).before n) i :=
  moved_inState_mono hn (fun m => h m i) moved

theorem moved_after_image (hn : g.Participates p.direction n) (h : p.Trails v w)
    (moved : p.Moved ((p.image g v).after n) i) : p.Moved ((p.image g w).after n) i :=
  moved_transfer_mono (moved_before_image hn h) moved

/-- Evaluation cannot tell valuations apart that trail each other. -/
theorem image_sameAt_of_trails (hn : g.Participates p.direction n) (vw : p.Trails v w)
    (wv : p.Trails w v) : (p.image g v).SameAt (p.image g w) n :=
  ⟨ext_moved fun _ => ⟨moved_before_image hn vw, moved_before_image hn wv⟩,
    ext_moved fun _ => ⟨moved_after_image hn vw, moved_after_image hn wv⟩⟩

/-- One evaluation keeps a valuation behind `w`, if it would keep the node behind. -/
theorem Trails.patch (h : p.Trails v w)
    (here : ∀ i, p.Moved (s.after n) i → p.Moved (w.after n) i) :
    p.Trails (v.patch n s) w := by
  intro m i moved
  by_cases same : m = n
  · subst same
    rw [Valuation.patch_sameAt.2] at moved
    exact here i moved
  · rw [(Valuation.patch_sameAt_of_ne same).2] at moved
    exact h m i moved

theorem trails_patch (here : ∀ i, p.Moved (v.after n) i → p.Moved (s.after n) i) :
    p.Trails v (v.patch n s) := by
  intro m i moved
  by_cases same : m = n
  · subst same
    rw [Valuation.patch_sameAt.2]
    exact here i moved
  · rw [(Valuation.patch_sameAt_of_ne same).2]
    exact moved

/-- Evaluation brings no bit after a participant back. -/
def Drifting (p : GenKill) (g : FlowGraph) (v : Valuation p.size) : Prop :=
  ∀ n, g.Participates p.direction n → ∀ i, p.Moved (v.after n) i →
    p.Moved ((p.image g v).after n) i

/-- The rest of a pass brings no bit back, and nor does evaluation where it ends. -/
theorem sweepFrom_drifts (visits : ∀ n ∈ order, g.Participates p.direction n)
    (nodup : order.Nodup) (hv : p.Drifting g v) (hu : p.Drifting g u) (trails : p.Trails v u)
    (same : ∀ n ∈ order, u.SameAt v n) :
    p.Trails u (p.sweepFrom g strategy v order u) ∧
      p.Drifting g (p.sweepFrom g strategy v order u) := by
  induction order generalizing u with
  | nil => exact ⟨trails_refl, hu⟩
  | cons n order ih =>
    obtain ⟨fresh, nodup⟩ := List.nodup_cons.1 nodup
    have hn := visits n List.mem_cons_self
    rw [sweepFrom_cons]
    generalize seen : strategy.sees v u = s
    have trailsSeen : p.Trails s u := by
      cases strategy with
      | gaussSeidel => exact seen ▸ trails_refl
      | jacobi => exact seen ▸ trails
    -- no bit at `n` comes back: in a Jacobi pass since `n` was untouched
    have here : ∀ i, p.Moved (u.after n) i → p.Moved ((p.image g s).after n) i := by
      intro i moved
      cases strategy with
      | gaussSeidel => exact seen ▸ hu n hn i moved
      | jacobi =>
        rw [(same n List.mem_cons_self).2] at moved
        exact seen ▸ hv n hn i moved
    have onward : p.Trails u (u.patch n (p.image g s)) := trails_patch here
    have still : p.Drifting g (u.patch n (p.image g s)) := by
      intro m hm i moved
      by_cases eq : m = n
      · subst eq
        rw [Valuation.patch_sameAt.2] at moved
        exact moved_after_image hm (trailsSeen.trans onward) moved
      · rw [(Valuation.patch_sameAt_of_ne eq).2] at moved
        exact moved_after_image hm onward (hu m hm i moved)
    have untouched : ∀ m ∈ order, (u.patch n (p.image g s)).SameAt v m := by
      intro m hm
      have ne : m ≠ n := fun eq => fresh (eq ▸ hm)
      exact (Valuation.patch_sameAt_of_ne ne).trans (same m (List.mem_cons_of_mem _ hm))
    obtain ⟨rest, drifting⟩ := ih (fun m hm => visits m (List.mem_cons_of_mem _ hm)) nodup still
      (trails.trans onward) untouched
    exact ⟨onward.trans rest, drifting⟩

theorem sweepFrom_append : p.sweepFrom g strategy v (pre ++ post) u =
    p.sweepFrom g strategy v post (p.sweepFrom g strategy v pre u) := List.foldl_append

/-- In a pass, a node is evaluated from the valuation that the evaluations before it have reached,
or from the one before the pass. -/
theorem sweep_sameAt_image (nodup : (pre ++ n :: post).Nodup) :
    (p.sweep g strategy (pre ++ n :: post) v).SameAt
      (p.image g (strategy.sees v (p.sweepFrom g strategy v pre v))) n := by
  have fresh : n ∉ post := (List.nodup_cons.1 (List.nodup_append.1 nodup).2.1).1
  rw [sweep, sweepFrom_append, sweepFrom_cons]
  exact (sweepFrom_sameAt fresh).trans Valuation.patch_sameAt

section Pass

variable (visits : ∀ n ∈ order, g.Participates p.direction n) (nodup : order.Nodup)
include visits nodup

theorem sweep_drifts (h : p.Drifting g v) : p.Trails v (p.sweep g strategy order v) ∧
    p.Drifting g (p.sweep g strategy order v) :=
  sweepFrom_drifts visits nodup h h trails_refl fun _ _ => Valuation.sameAt_refl

/-- What an evaluation sees lies between the valuations before and after the pass. -/
theorem exists_seen (h : p.Drifting g v) (hn : n ∈ order) :
    ∃ s, (p.sweep g strategy order v).SameAt (p.image g s) n ∧
      p.Trails v s ∧ p.Trails s (p.sweep g strategy order v) := by
  obtain ⟨pre, post, rfl⟩ := List.append_of_mem hn
  obtain ⟨nodupPre, nodupPost, apart⟩ := List.nodup_append.1 nodup
  refine ⟨_, sweep_sameAt_image nodup, ?_⟩
  cases strategy with
  | jacobi => exact ⟨trails_refl, (sweep_drifts visits nodup h).1⟩
  | gaussSeidel =>
    obtain ⟨first, drifting⟩ : p.Trails v (p.sweepFrom g .gaussSeidel v pre v) ∧
        p.Drifting g (p.sweepFrom g .gaussSeidel v pre v) :=
      sweep_drifts (fun m hm => visits m (List.mem_append_left _ hm)) nodupPre h
    refine ⟨first, ?_⟩
    rw [sweep, sweepFrom_append]
    refine (sweepFrom_drifts (fun m hm => visits m (List.mem_append_right _ hm))
      nodupPost h drifting first fun m hm => ?_).1
    exact sweepFrom_sameAt fun earlier => apart m earlier m hm rfl

end Pass

/-- Evaluation leaves the states at every participant as they are. -/
def Settled (p : GenKill) (g : FlowGraph) (v : Valuation p.size) : Prop :=
  ∀ n, g.Participates p.direction n → v.SameAt (p.image g v) n

/-- A pass leaves a settled valuation as it is. -/
theorem Settled.sweep_eq (visits : ∀ n ∈ order, g.Participates p.direction n)
    (h : p.Settled g v) : p.sweep g strategy order v = v := by
  unfold sweep
  induction order with
  | nil => rfl
  | cons n order ih =>
    have sees : strategy.sees v v = v := by cases strategy <;> rfl
    rw [sweepFrom_cons, sees, Valuation.patch_of_sameAt (h n (visits n List.mem_cons_self))]
    exact ih fun m hm => visits m (List.mem_cons_of_mem _ hm)

/-- Passes do not overtake a settled valuation. -/
theorem sweep_trails (visits : ∀ n ∈ order, g.Participates p.direction n) (hw : p.Settled g w)
    (h : p.Trails v w) : p.Trails (p.sweep g strategy order v) w := by
  refine sweep_induction (P := fun u => p.Trails u w) h fun s u n hn hs hu =>
    hu.patch fun i moved => ?_
  rw [(hw n (visits n hn)).2]
  exact moved_after_image (visits n hn) hs moved

/-- Settled valuations that trail each other are equal where facts can flow. -/
theorem Settled.sameAt (hv : p.Settled g v) (hw : p.Settled g w) (vw : p.Trails v w)
    (wv : p.Trails w v) (hn : g.Participates p.direction n) : v.SameAt w n :=
  (hv n hn).trans ((image_sameAt_of_trails hn vw wv).trans (hw n hn).symm)

end GenKill
end FlowAnalysis
