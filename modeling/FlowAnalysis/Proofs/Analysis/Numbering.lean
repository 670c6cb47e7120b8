import FlowAnalysis.Analysis.Numbering
import FlowAnalysis.Proofs.FirstOccurrence
import FlowAnalysis.Proofs.WordSet.Elements
import Mathlib.Data.List.Induction

/-!
Numbers of facts. Main statements: where keys find the numbers of their facts, and only these, sets
of numbers answer for a key just if they list its fact; and a table that hashes expressions finds
the numbers that it gives, as bisection finds the places of variables that ascend.
-/
namespace FlowAnalysis

namespace Numbering

variable {α κ : Type} {m : Numbering α κ} {s : BitSet} {a : α} {k : κ}

/-- Numbers and keys are inverse to each other, and what a set answers for a key agrees with the
facts that it lists: as many as it has elements, and none twice. -/
structure Agrees (m : Numbering α κ) : Prop where
  inverts : ∀ k i, m.index? k = some i ↔ ∃ a, m.facts[i]? = some a ∧ m.key a = k
  answers : ∀ w : WordSet, w.WellFormed → ∀ k,
    m.holds w k = true ↔ ∃ a ∈ m.listing w, m.key a = k
  length : ∀ w : WordSet, w.WellFormed → w.size = m.facts.size → (m.listing w).length = w.count
  nodup : ∀ w : WordSet, w.WellFormed → (m.listing w).Nodup

theorem listing_packed : m.listing (.packed s) = s.toList.filterMap (m.facts[·]?) := by
  rw [listing, WordSet.toList_packed]

theorem mem_listing_packed : a ∈ m.listing (.packed s) ↔ ∃ i ∈ s, m.facts[i]? = some a := by
  simp [listing_packed]

theorem holds_packed : m.holds (.packed s) k = true ↔ ∃ i ∈ s, m.index? k = some i := by
  unfold holds
  cases m.index? k with
  | none => simp
  | some i => simp

theorem length_listing_packed (size : s.size = m.facts.size) :
    (m.listing (.packed s)).length = (WordSet.packed s).count := by
  rw [listing_packed, WordSet.count_packed, BitSet.count, List.filterMap_length_eq_length]
  intro i mem
  have lt : i < m.facts.size := size ▸ BitSet.lt_size_of_mem (BitSet.mem_toList.1 mem)
  rw [Array.getElem?_eq_getElem lt]
  rfl

section Inverts

variable (inverts : ∀ k i, m.index? k = some i ↔ ∃ a, m.facts[i]? = some a ∧ m.key a = k)
include inverts

theorem eq_of_getElem? {i j : Nat} (first : m.facts[i]? = some a) (second : m.facts[j]? = some a) :
    i = j := by
  have found := (inverts (m.key a) i).2 ⟨a, first, rfl⟩
  exact Option.some.inj (found.symm.trans ((inverts (m.key a) j).2 ⟨a, second, rfl⟩))

theorem holds_packed_iff : m.holds (.packed s) k = true ↔
    ∃ a ∈ m.listing (.packed s), m.key a = k := by
  simp only [holds_packed, inverts, mem_listing_packed]
  constructor
  · rintro ⟨i, mem, a, fact, key⟩
    exact ⟨a, ⟨i, mem, fact⟩, key⟩
  · rintro ⟨a, ⟨i, mem, fact⟩, key⟩
    exact ⟨i, mem, a, fact, key⟩

theorem nodup_listing_packed : (m.listing (.packed s)).Nodup := by
  rw [listing_packed, List.Nodup, List.pairwise_filterMap]
  refine s.pairwise_toList.imp fun lt a first b second same => ?_
  exact Nat.ne_of_lt lt (eq_of_getElem? inverts first (same ▸ second))

/-- All that a numbering must show is that keys find the numbers of their facts, and only these. -/
theorem agrees_of_inverts : m.Agrees where
  inverts := inverts
  answers w formed k := by
    obtain ⟨s, rfl⟩ := WordSet.wellFormed_iff.1 formed
    exact holds_packed_iff inverts
  length w formed size := by
    obtain ⟨s, rfl⟩ := WordSet.wellFormed_iff.1 formed
    exact length_listing_packed size
  nodup w formed := by
    obtain ⟨s, rfl⟩ := WordSet.wellFormed_iff.1 formed
    exact nodup_listing_packed inverts

end Inverts

/-- The numbering has the facts of an analysis, and says of states what the analysis does. -/
structure Serves [DecidableEq α] (m : Numbering α α) (a : Analysis α) : Prop where
  facts : m.facts.toList = a.facts
  index : ∀ x, m.index? x = a.index? x
  holds : ∀ s x, m.holds (.packed s) x = a.holds s x
  listing : ∀ s, m.listing (.packed s) = a.holding s

theorem serves_of_facts [DecidableEq α] {m : Numbering α α} {a : Analysis α}
    (facts : m.facts.toList = a.facts) (nodup : a.facts.Nodup)
    (inverts : ∀ x i, m.index? x = some i ↔ m.facts[i]? = some x) : m.Serves a := by
  have same (i : Nat) : m.facts[i]? = a.facts[i]? := by rw [← facts, Array.getElem?_toList]
  have index (x : α) : m.index? x = a.index? x := by
    refine Option.ext fun i => ?_
    rw [inverts, same, Analysis.index?, idxOf?_eq_some_iff nodup]
  refine ⟨facts, index, fun s x => ?_, fun s => ?_⟩
  · rw [Numbering.holds, Analysis.holds, index]
    cases a.index? x with
    | none => rfl
    | some i => exact WordSet.contains_packed
  · rw [listing_packed, Analysis.holding]
    exact List.filterMap_congr fun i _ => same i

end Numbering

namespace ExprTable

variable {es : List Expr} {e : Expr} {t : ExprTable}

theorem contains_index : t.index.contains e = true ↔ e ∈ t.exprs.toList := by
  rw [Std.HashMap.contains_eq_isSome_getElem?, Option.isSome_iff_exists]
  simp only [t.inverts, Array.mem_toList_iff, Array.mem_iff_getElem?]

theorem toList_add : (t.add e).exprs.toList =
    if e ∈ t.exprs.toList then t.exprs.toList else t.exprs.toList ++ [e] := by
  unfold add
  by_cases known : t.index.contains e = true
  · rw [dif_pos known, if_pos (contains_index.1 known)]
  · rw [dif_neg known, if_neg (mt contains_index.2 known), Array.toList_push]

/-- The table has its expressions by first occurrence. -/
theorem toList_foldl (es : List Expr) :
    (es.foldl add empty).exprs.toList = es.eraseDups := by
  induction es using List.reverseRecOn with
  | nil => rfl
  | append_singleton es e ih =>
    rw [List.foldl_append, List.foldl_cons, List.foldl_nil, toList_add, ih, eraseDups_concat]
    simp only [List.mem_eraseDups]

end ExprTable

namespace Variable

variable {xs : Array Variable} {x y : Variable} {base size i j : Nat}
  (ascending : xs.toList.Pairwise (· < ·))
include ascending

theorem lt_of_getElem? (lt : i < j) (first : xs[i]? = some x) (second : xs[j]? = some y) :
    x < y := by
  rw [← Array.getElem?_toList, List.getElem?_eq_some_iff] at first second
  obtain ⟨hi, rfl⟩ := first
  obtain ⟨hj, rfl⟩ := second
  exact List.pairwise_iff_getElem.1 ascending i j hi hj lt

/-- The window never loses the place of `x`: it ends before a variable above `x`, and starts at one
that is not. -/
theorem bisect_eq (here : xs[i]? = some x) (inside : base + size ≤ xs.size) (low : base ≤ i)
    (high : i < base + size) : bisect xs x base size = i := by
  have there (j : Nat) (lt : j < xs.size) : xs[j]? = some xs[j] := Array.getElem?_eq_getElem lt
  induction base, size using bisect.induct xs x with
  | case1 base size small =>
    rw [bisect, if_pos small]
    omega
  | case2 base size large mid above ih =>
    rw [bisect, if_neg large]
    dsimp only
    rw [if_pos above]
    rw [there mid (by omega)] at above
    have above : x < xs[mid] := by simpa using above
    have before : i < mid := by
      refine Nat.lt_of_not_le fun le => ?_
      obtain lt | rfl := Nat.lt_or_eq_of_le le
      · exact String.lt_asymm above (lt_of_getElem? ascending lt (there mid _) here)
      · exact String.ne_of_lt above (Option.some.inj (here.symm.trans (there mid _)))
    exact ih (by omega) low (by omega)
  | case3 base size large mid notAbove ih =>
    rw [bisect, if_neg large]
    dsimp only
    rw [if_neg notAbove]
    rw [there mid (by omega)] at notAbove
    have notAbove : ¬ x < xs[mid] := by simpa using notAbove
    have after : mid ≤ i :=
      Nat.le_of_not_lt fun lt => notAbove (lt_of_getElem? ascending lt here (there mid _))
    exact ih (by omega) after (by omega)

/-- Bisection finds a variable that is there, and no other. -/
theorem index?_eq_some_iff : index? xs x = some i ↔ xs[i]? = some x := by
  unfold index?
  dsimp only
  constructor
  · intro found
    split at found
    next here => exact Option.some.inj found ▸ here
    next => cases found
  · intro here
    have lt : i < xs.size := (Array.getElem?_eq_some_iff.1 here).1
    have place : bisect xs x 0 xs.size = i :=
      bisect_eq ascending here (by omega) (Nat.zero_le i) (by omega)
    rw [place, if_pos here]

end Variable
end FlowAnalysis
