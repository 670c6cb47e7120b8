import FlowAnalysis.Proofs.Walk
import Mathlib.Data.List.Nodup
import Mathlib.Data.List.Perm.Subperm
import Mathlib.Tactic.ByContra

/-!
Direct walks: those that take no node twice, though they may end where they start. Main statements:
walks can be cut until they are direct, and a direct walk that steps back to the only way into a
region starts within it.
-/
namespace FlowAnalysis

section Strides

variable {α : Type} {a b x y : α} {ns : List α}

/-- The steps along a list of nodes. -/
def strides : List α → List (α × α)
  | a :: b :: rest => (a, b) :: strides (b :: rest)
  | _ => []

theorem map_snd_strides (a : α) (ns : List α) : (strides (a :: ns)).map Prod.snd = ns := by
  induction ns generalizing a with
  | nil => rfl
  | cons b ns ih => exact congrArg (b :: ·) (ih b)

theorem exists_of_mem_strides (h : (x, y) ∈ strides ns) :
    ∃ pre post, ns = pre ++ x :: y :: post := by
  induction ns with
  | nil => cases h
  | cons a ns ih =>
    cases ns with
    | nil => cases h
    | cons b ns =>
      obtain first | later := List.mem_cons.1 h
      · obtain ⟨rfl, rfl⟩ := Prod.mk.inj first
        exact ⟨[], ns, rfl⟩
      · obtain ⟨pre, post, whole⟩ := ih later
        exact ⟨a :: pre, post, congrArg (a :: ·) whole⟩

theorem strides_concat : strides (ns ++ [a, b]) = strides (ns ++ [a]) ++ [(a, b)] := by
  induction ns with
  | nil => rfl
  | cons c ns ih =>
    cases ns with
    | nil => rfl
    | cons d ns => exact congrArg ((c, d) :: ·) ih

theorem strides_reverse (ns : List α) :
    strides ns.reverse = ((strides ns).map Prod.swap).reverse := by
  induction ns with
  | nil => rfl
  | cons a ns ih =>
    cases ns with
    | nil => rfl
    | cons b ns =>
      have last : strides (a :: b :: ns).reverse = strides (b :: ns).reverse ++ [(b, a)] := by
        simp only [List.reverse_cons, List.append_assoc, List.cons_append, List.nil_append]
        exact strides_concat
      rw [last, ih]
      simp [strides]

/-- If every step leads up, all nodes ascend. -/
theorem pairwise_of_strides {ns : List Nat} (up : ∀ m n, (m, n) ∈ strides ns → m < n) :
    ns.Pairwise (· < ·) := by
  induction ns with
  | nil => exact List.Pairwise.nil
  | cons a ns ih =>
    cases ns with
    | nil => exact List.pairwise_singleton _ a
    | cons b ns =>
      have rest := ih fun m n mem => up m n (List.mem_cons_of_mem _ mem)
      have first := up a b List.mem_cons_self
      refine List.pairwise_cons.2 ⟨fun n hn => ?_, rest⟩
      obtain rfl | hn := List.mem_cons.1 hn
      · exact first
      · exact Nat.lt_trans first ((List.pairwise_cons.1 rest).1 n hn)

variable (late : α → α → Prop) [DecidableRel late]

/-- The number of steps along `ns` that are late. -/
def laps (ns : List α) : Nat := (strides ns).countP fun e => late e.1 e.2

theorem laps_cons_cons : laps late (a :: b :: ns) =
    laps late (b :: ns) + if late a b then 1 else 0 := by
  rw [laps, strides, List.countP_cons, laps]
  simp only [decide_eq_true_eq]

theorem laps_reverse : laps (fun a b => late b a) ns.reverse = laps late ns := by
  rw [laps, laps, strides_reverse, List.countP_reverse, List.countP_map]
  rfl

end Strides

variable {α : Type} {R : α → α → Prop} {a b t x : α} {mid ns pre post : List α}

/-- A walk comes apart at each of its steps. -/
theorem Walk.of_stride (h : Walk R a ns b) (whole : ns ++ [b] = pre ++ x :: t :: post) :
    Walk R a pre x ∧ R x t := by
  cases post using List.reverseRecOn with
  | nil =>
    obtain ⟨rfl, last⟩ :=
      List.append_inj' (show ns ++ [b] = (pre ++ [x]) ++ [t] by simpa using whole) rfl
    obtain rfl : b = t := by simpa using last
    exact Walk.concat_iff.1 h
  | append_singleton post l =>
    obtain ⟨rfl, -⟩ :=
      List.append_inj' (show ns ++ [b] = (pre ++ x :: t :: post) ++ [l] by simpa using whole) rfl
    obtain ⟨first, second⟩ := Walk.split_iff.1 h
    obtain ⟨-, c, next, rest⟩ := Walk.cons_iff.1 second
    obtain ⟨rfl, -⟩ := Walk.cons_iff.1 rest
    exact ⟨first, next⟩

/-- Without its detours, a walk takes each node once. -/
theorem Walk.exists_nodup (h : Walk R a ns b) :
    ∃ ms, Walk R a ms b ∧ (ms ++ [b]).Nodup ∧ ms ⊆ ns := by
  induction h with
  | stay => exact ⟨[], Walk.stay, List.nodup_singleton _, List.nil_subset _⟩
  | @step ns b c walk next ih =>
    obtain ⟨ms, direct, nodup, sub⟩ := ih
    have within : ∀ m ∈ ms ++ [b], m ∈ ns ++ [b] := by
      simp only [List.mem_append]
      exact fun m hm => hm.imp_left fun hm => sub hm
    by_cases back : c ∈ ms ++ [b]
    · obtain ⟨pre, post, whole⟩ := List.append_of_mem back
      rw [whole] at nodup within
      refine ⟨pre, ?_, ?_, fun m hm => within m (List.mem_append_left _ hm)⟩
      · exact (Walk.split_iff.1 (whole ▸ direct.step next)).1
      · exact nodup.sublist (by simp)
    · refine ⟨ms ++ [b], direct.step next, List.nodup_append.2 ⟨nodup, by simp, ?_⟩, within⟩
      intro m hm k hk same
      exact back (List.mem_singleton.1 hk ▸ same ▸ hm)

/-- A walk of at least one step that takes no node twice, except that it may end where it starts. -/
structure Direct (R : α → α → Prop) (a : α) (mid : List α) (b : α) : Prop where
  walk : Walk R a (a :: mid) b
  sources : (a :: mid).Nodup
  targets : (mid ++ [b]).Nodup

theorem Walk.direct (h : Walk R a (a :: ns) b) : ∃ mid, Direct R a mid b ∧ mid ⊆ ns := by
  obtain ⟨ms, walk, left, sub⟩ := h.leave
  obtain ⟨-, c, next, rest⟩ := Walk.cons_iff.1 walk
  obtain ⟨mid, direct, nodup, within⟩ := rest.exists_nodup
  refine ⟨mid, ⟨Walk.cons next direct, ?_, nodup⟩, fun m hm => sub (within hm)⟩
  exact List.nodup_cons.2 ⟨fun mem => left (within mem), (List.nodup_append.1 nodup).1⟩

theorem direct_of_nodup (h : Walk R a (a :: mid) b) (nodup : (a :: mid ++ [b]).Nodup) :
    Direct R a mid b :=
  ⟨h, (List.nodup_append.1 nodup).1, (List.nodup_cons.1 nodup).2⟩

namespace Direct

theorem mono {S : α → α → Prop} (le : ∀ x y, R x y → S x y) (h : Direct R a mid b) :
    Direct S a mid b :=
  ⟨h.walk.mono le, h.sources, h.targets⟩

theorem reverse (h : Direct R a mid b) : Direct (fun x y => R y x) b mid.reverse a where
  walk := h.walk.reverse
  sources := by simpa using List.nodup_reverse.2 h.targets
  targets := by simpa using List.nodup_reverse.2 h.sources

/-- A direct walk that steps back, within a region, to the only way in starts in the region. -/
theorem start_of_return {P : α → Prop} (enter : ∀ u v, R u v → ¬ P u → P v → v = t)
    (h : Direct R a mid b) (stride : (x, t) ∈ strides (a :: mid ++ [b])) (inside : P x) : P a := by
  by_contra outside
  obtain ⟨pre, post, whole⟩ := exists_of_mem_strides stride
  obtain ⟨walk, -⟩ := h.walk.of_stride whole
  obtain ⟨ms, m, c, rest, rfl, first, -, out, next, entered, second⟩ :=
    walk.firstOutside (P := (¬ P ·)) outside (not_not.2 inside)
  obtain rfl : c = t := enter m c next out (not_not.1 entered)
  -- the walk is at `c` when it enters the region and again when it steps back
  have again : c ∈ rest ++ [x] := second.start_mem
  cases ms with
  | nil =>
    obtain rfl := Walk.nil_iff.1 first
    exact outside (not_not.1 entered)
  | cons k ms =>
    have targets : mid ++ [b] = ms ++ ((rest ++ [x]) ++ c :: post) := by
      simpa using (List.cons.inj whole).2
    have nodup := (List.nodup_append.1 (targets ▸ h.targets)).2.1
    exact (List.nodup_append.1 nodup).2.2 c again c List.mem_cons_self rfl

/-- A direct walk has no more late steps than there are nodes to which they lead. -/
theorem laps_le {late : α → α → Prop} [DecidableRel late] {heads : List α} (h : Direct R a mid b)
    (mem : ∀ x t, (x, t) ∈ strides (a :: mid ++ [b]) → late x t → t ∈ heads) :
    laps late (a :: mid ++ [b]) ≤ heads.length := by
  have sub : (((strides (a :: mid ++ [b])).filter fun e => late e.1 e.2).map Prod.snd).Sublist
      (mid ++ [b]) := by
    have := (List.filter_sublist (l := strides (a :: mid ++ [b]))
      (p := fun e => late e.1 e.2)).map Prod.snd
    rwa [List.cons_append, map_snd_strides] at this
  rw [laps, List.countP_eq_length_filter, ← List.length_map Prod.snd]
  refine ((h.targets.sublist sub).subperm fun t ht => ?_).length_le
  obtain ⟨⟨x, y⟩, he, rfl⟩ := List.mem_map.1 ht
  obtain ⟨he, isLate⟩ := List.mem_filter.1 he
  exact mem x y he (of_decide_eq_true isLate)

end Direct
end FlowAnalysis
