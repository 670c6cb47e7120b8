import FlowAnalysis.Text.Blank

/-!
Variables are names, ordered by code points. Sets of variables are ascending lists.
-/
namespace FlowAnalysis

abbrev Variable := String

namespace Variable

/-- A name must show something. -/
def wellNamed (x : Variable) : Bool := !Text.blank x

/-- Add `x` to an ascending list. A list that has it stays as it is. -/
def addTo (x : Variable) : List Variable → List Variable
  | [] => [x]
  | y :: ys => if x < y then x :: y :: ys else if x = y then y :: ys else y :: addTo x ys

/-- The different members of `xs`, ascending. -/
def ascending (xs : List Variable) : List Variable := xs.foldr addTo []

@[simp] theorem mem_addTo {x y : Variable} {ys : List Variable} :
    y ∈ addTo x ys ↔ y = x ∨ y ∈ ys := by
  induction ys with
  | nil => simp [addTo]
  | cons z zs ih => simp only [addTo]; grind

theorem pairwise_addTo {x : Variable} {ys : List Variable} (h : ys.Pairwise (· < ·)) :
    (addTo x ys).Pairwise (· < ·) := by
  induction ys with
  | nil => simp [addTo]
  | cons y ys ih =>
    rw [List.pairwise_cons] at h
    simp only [addTo]
    split
    next lt =>
      refine List.pairwise_cons.2 ⟨fun z hz => ?_, List.pairwise_cons.2 h⟩
      rcases List.mem_cons.1 hz with rfl | hz
      · exact lt
      · exact String.lt_trans lt (h.1 z hz)
    next nlt =>
      split
      · exact List.pairwise_cons.2 h
      next ne =>
        refine List.pairwise_cons.2 ⟨fun z hz => ?_, ih h.2⟩
        rcases mem_addTo.1 hz with rfl | hz
        · grind
        · exact h.1 z hz

@[simp] theorem mem_ascending {x : Variable} {xs : List Variable} :
    x ∈ ascending xs ↔ x ∈ xs := by
  induction xs with
  | nil => simp [ascending]
  | cons y ys ih => simpa [ascending] using or_congr_right ih

theorem pairwise_ascending (xs : List Variable) : (ascending xs).Pairwise (· < ·) := by
  induction xs with
  | nil => simp [ascending]
  | cons y ys ih => simpa [ascending] using pairwise_addTo ih

end Variable
end FlowAnalysis
