import Mathlib.Data.List.Nodup

/-!
Lists without repetition. Main statements: where later duplicates are erased, the members come in
the order of their first occurrence, so none comes twice; and parts of a list without repetition are
told by their members.
-/
namespace FlowAnalysis

variable {α : Type} [DecidableEq α]

/-- Of two members that a filter lets through, the one that comes first still does. -/
theorem idxOf_lt_of_idxOf_filter_lt {p : α → Bool} {xs : List α} {a b : α} (ha : p a = true)
    (hb : p b = true) (h : (xs.filter p).idxOf a < (xs.filter p).idxOf b) :
    xs.idxOf a < xs.idxOf b := by
  induction xs with
  | nil => simp at h
  | cons x xs ih =>
    rw [List.filter_cons] at h
    by_cases hx : p x = true
    · rw [if_pos hx] at h
      have hxb : x ≠ b := by
        rintro rfl
        simp at h
      rw [List.idxOf_cons_ne _ hxb] at h ⊢
      by_cases hxa : x = a
      · rw [hxa, List.idxOf_cons_self]
        exact Nat.succ_pos _
      · rw [List.idxOf_cons_ne _ hxa] at h ⊢
        exact Nat.succ_lt_succ (ih (Nat.lt_of_succ_lt_succ h))
    · have hxa : x ≠ a := fun same => hx (same ▸ ha)
      have hxb : x ≠ b := fun same => hx (same ▸ hb)
      rw [if_neg hx] at h
      rw [List.idxOf_cons_ne _ hxa, List.idxOf_cons_ne _ hxb]
      exact Nat.succ_lt_succ (ih h)

theorem pairwise_idxOf_eraseDups (xs : List α) :
    xs.eraseDups.Pairwise (fun a b => xs.idxOf a < xs.idxOf b) := by
  induction hn : xs.length using Nat.strongRecOn generalizing xs with
  | ind n ih =>
    cases xs with
    | nil => simp
    | cons x xs =>
      rw [List.eraseDups_cons, List.pairwise_cons]
      have shorter : (xs.filter (!· == x)).length < n := by
        have := List.length_filter_le (!· == x) xs
        simp only [List.length_cons] at hn
        omega
      have other : ∀ b ∈ (xs.filter (!· == x)).eraseDups, (!b == x) = true := by
        intro b hb
        exact (List.mem_filter.1 (List.mem_eraseDups.1 hb)).2
      have shift : ∀ b, (!b == x) = true → (x :: xs).idxOf b = xs.idxOf b + 1 := by
        intro b hb
        exact List.idxOf_cons_ne _ fun same => by simp [same] at hb
      constructor
      · intro b hb
        rw [List.idxOf_cons_self, shift b (other b hb)]
        exact Nat.succ_pos _
      · refine (ih _ shorter _ rfl).imp_of_mem fun ha hb lt => ?_
        rw [shift _ (other _ ha), shift _ (other _ hb)]
        exact Nat.succ_lt_succ (idxOf_lt_of_idxOf_filter_lt (other _ ha) (other _ hb) lt)

theorem nodup_eraseDups (xs : List α) : xs.eraseDups.Nodup :=
  (pairwise_idxOf_eraseDups xs).imp fun lt same => by simp [same] at lt

theorem eraseDups_of_nodup {xs : List α} (h : xs.Nodup) : xs.eraseDups = xs := by
  induction xs with
  | nil => rfl
  | cons x xs ih =>
    obtain ⟨fresh, nodup⟩ := List.nodup_cons.1 h
    have kept : xs.filter (!· == x) = xs := by
      refine List.filter_eq_self.2 fun y hy => ?_
      simpa using fun same : y = x => fresh (same ▸ hy)
    rw [List.eraseDups_cons, kept, ih nodup]

theorem eraseDups_concat {xs : List α} {x : α} :
    (xs ++ [x]).eraseDups = if x ∈ xs then xs.eraseDups else xs.eraseDups ++ [x] := by
  rw [List.eraseDups_append]
  by_cases mem : x ∈ xs
  · rw [if_pos mem, List.removeAll, List.filter_cons_of_neg (by simpa using mem), List.filter_nil,
      List.eraseDups_nil, List.append_nil]
  · rw [if_neg mem, List.removeAll, List.filter_cons_of_pos (by simpa using mem)]
    rfl

/-- A part of a list without repetition is what the list has of it. -/
theorem filter_mem_of_sublist {xs zs : List α} (sub : xs.Sublist zs) (nodup : zs.Nodup) :
    zs.filter (· ∈ xs) = xs := by
  induction sub with
  | slnil => rfl
  | cons z sub ih =>
    obtain ⟨fresh, nodup⟩ := List.nodup_cons.1 nodup
    rw [List.filter_cons_of_neg (by simpa using fun mem => fresh (sub.subset mem)), ih nodup]
  | @cons_cons xs zs z sub ih =>
    obtain ⟨fresh, nodup⟩ := List.nodup_cons.1 nodup
    have others : zs.filter (· ∈ z :: xs) = zs.filter (· ∈ xs) := by
      refine List.filter_congr fun y hy => ?_
      have other : y ≠ z := fun same => fresh (same ▸ hy)
      simp [other]
    rw [List.filter_cons_of_pos (by simp), others, ih nodup]

/-- Parts of a list without repetition are the same if their members are. -/
theorem eq_of_sublist_of_mem_iff {xs ys zs : List α} (nodup : zs.Nodup) (hx : xs.Sublist zs)
    (hy : ys.Sublist zs) (same : ∀ a, a ∈ xs ↔ a ∈ ys) : xs = ys := by
  rw [← filter_mem_of_sublist hx nodup, ← filter_mem_of_sublist hy nodup]
  exact List.filter_congr fun z _ => by simp [same z]

/-- The place of a member of a list without repetition is where it stands. -/
theorem idxOf?_eq_some_iff {xs : List α} (nodup : xs.Nodup) {x : α} {i : Nat} :
    xs.idxOf? x = some i ↔ xs[i]? = some x := by
  rw [List.idxOf?_eq_some_iff, List.getElem?_eq_some_iff]
  refine exists_congr fun lt => ⟨And.left, fun here => ⟨here, fun j earlier same => ?_⟩⟩
  have place := nodup.getElem_inj_iff.1 (same.trans here.symm)
  exact absurd place (Nat.ne_of_lt earlier)

end FlowAnalysis
