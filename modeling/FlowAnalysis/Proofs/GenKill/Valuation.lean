import FlowAnalysis.GenKill.Pass
import FlowAnalysis.Proofs.Confluence.Order
import FlowAnalysis.Proofs.FlowWalk

/-!
Valuations: what holds before and after each node of a graph, and how a gen/kill problem evaluates
all nodes of a valuation at once. Main statements: what a node finds before it tells what flows in,
and transfers are monotone, bit by bit.
-/
namespace FlowAnalysis

/-- The facts before and after the transfer of every node. -/
structure Valuation (size : Nat) where
  before : Nat → BitVec size
  after : Nat → BitVec size

namespace Valuation

variable {size : Nat} {u v w : Valuation size} {m n : Nat}

/-- Equal states at node `n`. -/
def SameAt (v w : Valuation size) (n : Nat) : Prop :=
  v.before n = w.before n ∧ v.after n = w.after n

/-- `v` with the states of `w` at node `n`. -/
def patch (v : Valuation size) (n : Nat) (w : Valuation size) : Valuation size where
  before := Function.update v.before n (w.before n)
  after := Function.update v.after n (w.after n)

/-- `v` tells, before and after node `n`, all that `w` tells there. -/
def BelowAt (c : Confluence) (v w : Valuation size) (n : Nat) : Prop :=
  ∀ i, (c.Tells (w.before n) i → c.Tells (v.before n) i) ∧
    (c.Tells (w.after n) i → c.Tells (v.after n) i)

theorem sameAt_refl : v.SameAt v n := ⟨rfl, rfl⟩

theorem SameAt.symm (h : v.SameAt w n) : w.SameAt v n := ⟨h.1.symm, h.2.symm⟩

theorem SameAt.trans (h : u.SameAt v n) (k : v.SameAt w n) : u.SameAt w n :=
  ⟨h.1.trans k.1, h.2.trans k.2⟩

theorem patch_sameAt : (v.patch n w).SameAt w n :=
  ⟨Function.update_self .., Function.update_self ..⟩

theorem patch_sameAt_of_ne (h : m ≠ n) : (v.patch n w).SameAt v m :=
  ⟨Function.update_of_ne h .., Function.update_of_ne h ..⟩

theorem ext_sameAt (h : ∀ n, v.SameAt w n) : v = w := by
  obtain ⟨before, after⟩ := v
  have hb : before = w.before := funext fun n => (h n).1
  have ha : after = w.after := funext fun n => (h n).2
  rw [hb, ha]

theorem SameAt.belowAt {c : Confluence} (h : v.SameAt w n) : v.BelowAt c w n := by
  intro i
  rw [h.1, h.2]
  exact ⟨id, id⟩

/-- Nothing but itself is above what tells nothing. -/
theorem BelowAt.sameAt {c : Confluence} (h : v.BelowAt c w n) (before : v.before n = c.top size)
    (after : v.after n = c.top size) : w.SameAt v n := by
  constructor
  · refine Confluence.ext_tells fun i => ⟨(h i).1, fun told => ?_⟩
    rw [before] at told
    exact absurd told Confluence.not_tells_top
  · refine Confluence.ext_tells fun i => ⟨(h i).2, fun told => ?_⟩
    rw [after] at told
    exact absurd told Confluence.not_tells_top

/-- A patch with the states that are there changes nothing. -/
theorem patch_of_sameAt (h : v.SameAt w n) : v.patch n w = v := by
  apply ext_sameAt
  intro m
  by_cases same : m = n
  · rw [same]
    exact patch_sameAt.trans h.symm
  · exact patch_sameAt_of_ne same

end Valuation

namespace GenKill

variable {p : GenKill} {g : FlowGraph} {v w : Valuation p.size} {n i : Nat} {c : Confluence}

/-- What node `n` finds before it: the meet of what flows in, or what was there if nothing does. -/
def inState (p : GenKill) (g : FlowGraph) (v : Valuation p.size) (n : Nat) : BitVec p.size :=
  match p.inflow g n ((g.sources p.direction n).map v.after) with
  | [] => v.before n
  | x :: xs => p.meetAll x xs

/-- All nodes evaluated at once. -/
def image (p : GenKill) (g : FlowGraph) (v : Valuation p.size) : Valuation p.size where
  before := p.inState g v
  after n := p.transfer n (p.inState g v n)

theorem after_image : (p.image g v).after n = p.transfer n ((p.image g v).before n) := rfl

theorem tells_meetAll {x : BitVec p.size} {xs : List (BitVec p.size)} :
    p.confluence.Tells (p.meetAll x xs) i ↔
      ∃ y ∈ x :: xs, p.confluence.Tells y i := by
  unfold meetAll
  induction xs generalizing x with
  | nil => simp
  | cons y ys ih =>
    rw [List.foldl_cons, ih]
    simp only [List.mem_cons, exists_eq_or_imp, Confluence.tells_meetBits, or_assoc]

/-- What a node finds tells what the boundary value or a source tells, or, where nothing flows in,
what it told before. -/
theorem tells_inState :
    p.confluence.Tells (p.inState g v n) i ↔
      n = g.boundaryNode p.direction ∧ p.confluence.Tells p.boundary i ∨
      (∃ m, g.Feeds p.direction m n ∧ p.confluence.Tells (v.after m) i) ∨
      (n ≠ g.boundaryNode p.direction ∧ g.sources p.direction n = []) ∧
        p.confluence.Tells (v.before n) i := by
  have fed : (∃ y ∈ (g.sources p.direction n).map v.after, p.confluence.Tells y i) ↔
      ∃ m, g.Feeds p.direction m n ∧ p.confluence.Tells (v.after m) i := by
    simp only [List.mem_map, exists_exists_and_eq_and]
    rfl
  rw [← fed]
  unfold inState inflow
  by_cases start : n = g.boundaryNode p.direction
  · rw [if_pos start]
    simp only [tells_meetAll, List.mem_cons, exists_eq_or_imp, start, true_and, ne_eq,
      not_true_eq_false, false_and, or_false]
  · rw [if_neg start]
    cases hs : (g.sources p.direction n).map v.after with
    | nil =>
      have none : g.sources p.direction n = [] := List.map_eq_nil_iff.1 hs
      simp [start, none]
    | cons x xs =>
      have some : g.sources p.direction n ≠ [] := by
        intro none
        simp [none] at hs
      simp [tells_meetAll, start, some]

/-- What holds after a node does not depend on what holds before it, or it does so bit by bit. -/
theorem tells_transfer {x : BitVec p.size} (h : c.Tells (p.transfer n x) i) :
    (∀ y, c.Tells (p.transfer n y) i) ∨
      c.Tells x i ∧ ∀ y, c.Tells y i → c.Tells (p.transfer n y) i := by
  cases c with
  | union =>
    simp only [Confluence.tells_union, getLsbD_transfer] at h ⊢
    cases h with
    | inl gen => exact Or.inl fun y => Or.inl gen
    | inr keep => exact Or.inr ⟨keep.1, fun y hy => Or.inr ⟨hy, keep.2⟩⟩
  | intersection =>
    simp only [Confluence.tells_intersection, ← Bool.not_eq_true, getLsbD_transfer, not_or, not_and]
      at h ⊢
    obtain ⟨lt, gen, keep⟩ := h
    by_cases hx : x.getLsbD i = true
    · exact Or.inl fun y => ⟨lt, gen, fun _ => keep hx⟩
    · exact Or.inr ⟨⟨lt, hx⟩, fun y hy => ⟨lt, gen, fun told => absurd told hy.2⟩⟩

theorem tells_transfer_mono {x y : BitVec p.size} (h : c.Tells x i → c.Tells y i)
    (told : c.Tells (p.transfer n x) i) : c.Tells (p.transfer n y) i := by
  cases tells_transfer told with
  | inl always => exact always y
  | inr through => exact through.2 y (h through.1)

end GenKill
end FlowAnalysis
