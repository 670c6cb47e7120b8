import FlowAnalysis.Proofs.BitSet.Elements
import FlowAnalysis.Proofs.Confluence.Order

/-!
Each confluence with its dual. Main statements: the meet of the one is the join of the other, the
two absorb one another, and what stands below in the one stands above in the other.
-/
namespace FlowAnalysis
namespace Confluence

variable {n i : Nat} {c : Confluence} {x y z : BitVec n}

/-- The confluence whose meet is the join of `c`. -/
def dual : Confluence → Confluence
  | union => .intersection
  | intersection => .union

theorem bottom_eq : c.bottom n = c.dual.top n := by
  cases c <;> rfl

theorem tells_dual : c.dual.Tells x i ↔ i < n ∧ ¬ c.Tells x i := by
  cases c with
  | union =>
    simp only [dual, tells_intersection, tells_union, Bool.not_eq_true]
  | intersection =>
    simp only [dual, tells_intersection, tells_union, not_and, Bool.not_eq_false]
    exact ⟨fun bit => ⟨BitVec.lt_of_getLsbD bit, fun _ => bit⟩, fun told => told.2 told.1⟩

theorem lt_of_tells (h : c.Tells x i) : i < n := by
  cases c with
  | union => exact BitVec.lt_of_getLsbD (tells_union.1 h)
  | intersection => exact (tells_intersection.1 h).1

theorem tells_joinBits : c.Tells (c.dual.meetBits x y) i ↔ c.Tells x i ∧ c.Tells y i := by
  cases c with
  | union => simp only [tells_union, dual, meetBits, BitVec.getLsbD_and, Bool.and_eq_true]
  | intersection =>
    simp only [tells_intersection, dual, meetBits, BitVec.getLsbD_or, Bool.or_eq_false_iff]
    exact and_and_left

theorem meetBits_self : c.meetBits x x = x :=
  ext_tells fun _ => tells_meetBits.trans or_self_iff

theorem meetBits_comm : c.meetBits x y = c.meetBits y x :=
  ext_tells (c := c) fun _ => by rw [tells_meetBits, tells_meetBits, or_comm]

theorem meetBits_assoc : c.meetBits x (c.meetBits y z) = c.meetBits (c.meetBits x y) z :=
  ext_tells (c := c) fun _ => by
    rw [tells_meetBits, tells_meetBits, tells_meetBits, tells_meetBits, or_assoc]

theorem meetBits_joinBits : c.meetBits x (c.dual.meetBits x y) = x :=
  ext_tells (c := c) fun _ => by
    rw [tells_meetBits, tells_joinBits]
    exact or_iff_left_of_imp And.left

theorem below_dual : c.dual.Below x y ↔ c.Below y x := by
  rw [below_iff, below_iff]
  simp only [tells_dual]
  refine forall_congr' fun i => ⟨fun h hx => ?_, fun h hy => ⟨hy.1, fun hx => hy.2 (h hx)⟩⟩
  exact Classical.not_not.1 fun hy => (h ⟨lt_of_tells hx, hy⟩).2 hx

theorem dual_dual : c.dual.dual = c := by
  cases c <;> rfl

theorem joinBits_meetBits : c.dual.meetBits x (c.meetBits x y) = x := by
  have law : c.dual.meetBits x (c.dual.dual.meetBits x y) = x := meetBits_joinBits
  rwa [dual_dual] at law

theorem below_self : c.Below x x := meetBits_self

theorem below_meetBits : c.Below z (c.meetBits x y) ↔ c.Below z x ∧ c.Below z y := by
  simp only [below_iff, tells_meetBits]
  exact ⟨fun h => ⟨fun i hx => h i (Or.inl hx), fun i hy => h i (Or.inr hy)⟩,
    fun h i told => told.elim (h.1 i) (h.2 i)⟩

theorem joinBits_below : c.Below (c.dual.meetBits x y) z ↔ c.Below x z ∧ c.Below y z := by
  rw [← below_dual, below_meetBits, below_dual, below_dual]

theorem join_eq (s t : BitSet) : c.join s t = c.dual.meet s t := by
  cases c <;> rfl

theorem isBottom_eq (s : BitSet) : c.isBottom s = c.dual.isTop s := by
  cases c <;> rfl

theorem isTop_ofBits : c.isTop (.ofBits x) = true ↔ x = c.top n := by
  cases c with
  | union =>
    rw [isTop, BitSet.isEmpty_iff]
    simp [BitSet.empty, top]
  | intersection =>
    rw [isTop, BitSet.isFull_iff]
    simp [BitSet.full, top]

end Confluence
end FlowAnalysis
