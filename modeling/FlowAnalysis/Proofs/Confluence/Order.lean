import FlowAnalysis.Confluence
import Mathlib.Tactic.Choose

/-!
The order of sets under a confluence, bit by bit: a set tells of a bit if it differs there from the
top, and the less a set tells, the higher it stands. Main statements: a set is below another when it
tells all that the other tells, and a set that tells what any member of a family tells is the meet
of the family.
-/
namespace FlowAnalysis
namespace Confluence

variable {n i : Nat} {c : Confluence} {x y : BitVec n}

/-- Bit `i` of `x` is not that of the top. -/
def Tells (c : Confluence) (x : BitVec n) (i : Nat) : Prop := x.getLsbD i ≠ (c.top n).getLsbD i

instance : Decidable (c.Tells x i) := inferInstanceAs (Decidable (_ ≠ _))

theorem tells_union : union.Tells x i ↔ x.getLsbD i = true := by
  simp [Tells, top]

theorem tells_intersection : intersection.Tells x i ↔ i < n ∧ x.getLsbD i = false := by
  by_cases h : i < n
  · simp [Tells, top, h]
  · simp [Tells, top, h, BitVec.getLsbD_of_ge x i (Nat.le_of_not_lt h)]

@[simp] theorem not_tells_top : ¬ c.Tells (c.top n) i := fun h => h rfl

@[simp] theorem tells_meetBits : c.Tells (c.meetBits x y) i ↔ c.Tells x i ∨ c.Tells y i := by
  cases c with
  | union => simp only [tells_union, meetBits, BitVec.getLsbD_or, Bool.or_eq_true]
  | intersection =>
    simp only [tells_intersection, meetBits, BitVec.getLsbD_and, Bool.and_eq_false_iff]
    exact and_or_left

theorem ext_tells (h : ∀ i, c.Tells x i ↔ c.Tells y i) : x = y := by
  apply BitVec.eq_of_getLsbD_eq
  intro i lt
  have same := h i
  cases c with
  | union => simpa only [tells_union, ← Bool.eq_iff_iff] using same
  | intersection =>
    simp only [tells_intersection, lt, true_and] at same
    rw [Bool.eq_iff_iff, ← Bool.not_eq_false, ← Bool.not_eq_false, same]

/-- It holds of one member that belongs, or of every one, as states meet. -/
def Across {ι : Type} (c : Confluence) (belongs holds : ι → Prop) : Prop :=
  match c with
  | union => ∃ a, belongs a ∧ holds a
  | intersection => ∀ a, belongs a → holds a

/-- A state that tells what any member of a family tells has the bits that the members have. -/
theorem getLsbD_iff_across {ι : Type} {belongs : ι → Prop} {y : ι → BitVec n} (lt : i < n)
    (h : c.Tells x i ↔ ∃ a, belongs a ∧ c.Tells (y a) i) :
    x.getLsbD i = true ↔ c.Across belongs fun a => (y a).getLsbD i = true := by
  cases c with
  | union =>
    simp only [tells_union] at h
    exact h
  | intersection =>
    simp only [tells_intersection, lt, true_and] at h
    rw [← Bool.not_eq_false, h]
    simp only [Across, not_exists, not_and, Bool.not_eq_false]

/-- What all members have in common stands apart, if any member belongs. -/
theorem across_or_and {ι : Type} {belongs holds : ι → Prop} {p q : Prop}
    (some : ∃ a, belongs a) :
    c.Across belongs (fun a => p ∨ holds a ∧ q) ↔ p ∨ c.Across belongs holds ∧ q := by
  obtain ⟨a, ha⟩ := some
  cases c with
  | union =>
    constructor
    · intro ⟨b, hb, told⟩
      exact told.imp_right fun told => ⟨⟨b, hb, told.1⟩, told.2⟩
    · intro told
      cases told with
      | inl hp => exact ⟨a, ha, Or.inl hp⟩
      | inr told =>
        obtain ⟨⟨b, hb, told⟩, hq⟩ := told
        exact ⟨b, hb, Or.inr ⟨told, hq⟩⟩
  | intersection =>
    by_cases hp : p
    · exact ⟨fun _ => Or.inl hp, fun _ _ _ => Or.inl hp⟩
    · simp only [Across, hp, false_or]
      exact ⟨fun told => ⟨fun b hb => (told b hb).1, (told a ha).2⟩,
        fun told b hb => ⟨told.1 b hb, told.2⟩⟩

/-- Of what happens along the images of indices under `f`, the indices tell. -/
theorem across_map {ι κ : Type} {c : Confluence} {f : ι → κ} {belongs : ι → Prop}
    {holds : κ → Prop} : c.Across (fun k => ∃ i, k = f i ∧ belongs i) holds ↔
      c.Across belongs fun i => holds (f i) := by
  cases c with
  | union =>
    constructor
    · rintro ⟨_, ⟨i, rfl, hi⟩, told⟩
      exact ⟨i, hi, told⟩
    · intro ⟨i, hi, told⟩
      exact ⟨_, ⟨i, rfl, hi⟩, told⟩
  | intersection =>
    constructor
    · intro told i hi
      exact told _ ⟨i, rfl, hi⟩
    · rintro told _ ⟨i, rfl, hi⟩
      exact told i hi

theorem across_congr {ι : Type} {c : Confluence} {belongs p q : ι → Prop}
    (same : ∀ i, belongs i → (p i ↔ q i)) : c.Across belongs p ↔ c.Across belongs q := by
  cases c with
  | union => exact exists_congr fun i => and_congr_right (same i)
  | intersection => exact forall_congr' fun i => imp_congr_right (same i)

/-- What holds across a family with a member holds of a member. -/
theorem Across.exists {ι : Type} {c : Confluence} {belongs holds : ι → Prop}
    (some : ∃ i, belongs i) (h : c.Across belongs holds) : ∃ i, belongs i ∧ holds i := by
  cases c with
  | union => exact h
  | intersection =>
    obtain ⟨i, hi⟩ := some
    exact ⟨i, hi, h i hi⟩

/-- `x` is the meet of `x` and `y`. -/
def Below (c : Confluence) (x y : BitVec n) : Prop := c.meetBits x y = x

theorem below_iff : c.Below x y ↔ ∀ i, c.Tells y i → c.Tells x i := by
  constructor
  · intro h i hy
    rw [← h, tells_meetBits]
    exact Or.inr hy
  · intro h
    apply ext_tells
    intro i
    rw [tells_meetBits]
    exact or_iff_left_of_imp (h i)

theorem meet_of_ne {s t : BitSet} (h : t.size ≠ s.size) :
    c.meet s t = .error .universeMismatch := by
  cases c with
  | union =>
    rw [meet, BitSet.union, BitSet.combine_of_ne h]
    rfl
  | intersection =>
    rw [meet, BitSet.inter, BitSet.combine_of_ne h]
    rfl

/-- What stands above `x` is of its universe. -/
theorem le_ofBits_iff {s : BitSet} :
    c.le (.ofBits x) s = .ok true ↔ ∃ y : BitVec n, s = .ofBits y ∧ c.Below x y := by
  by_cases size : s.size = n
  · obtain ⟨m, y⟩ := s
    cases size
    have flag : c.le (.ofBits x) (.ofBits y) =
        .ok (BitSet.ofBits (c.meetBits x y) == .ofBits x) := by
      rw [le, meet_ofBits]
      rfl
    rw [flag]
    constructor
    · intro told
      have same : BitSet.ofBits (c.meetBits x y) = .ofBits x := by simpa using told
      exact ⟨y, rfl, by simpa [Below] using same⟩
    · rintro ⟨z, same, below⟩
      obtain rfl : y = z := by simpa using same
      rw [below, beq_self_eq_true]
  · rw [le, meet_of_ne size]
    constructor
    · intro told
      cases told
    · rintro ⟨y, rfl, -⟩
      exact absurd rfl size

/-- State for state, `xs` stands below `ys`. -/
structure BelowEach (c : Confluence) (xs ys : Array BitSet) : Prop where
  size : xs.size = ys.size
  le : ∀ (m : Nat) (s t : BitSet), xs[m]? = some s → ys[m]? = some t → c.le s t = .ok true

theorem belowEach_ofFn {count : Nat} {f g : Nat → BitVec n}
    (h : ∀ m < count, c.Below (f m) (g m)) :
    c.BelowEach (Array.ofFn fun m : Fin count => .ofBits (f m))
      (Array.ofFn fun m : Fin count => .ofBits (g m)) where
  size := by simp
  le := by
    intro m s t hs ht
    by_cases lt : m < count
    · rw [Array.getElem?_ofFn, dif_pos lt] at hs ht
      obtain rfl := Option.some.inj hs
      obtain rfl := Option.some.inj ht
      exact le_ofBits_iff.2 ⟨g m, rfl, h m lt⟩
    · rw [Array.getElem?_ofFn, dif_neg lt] at hs
      cases hs

/-- States above given ones are given by bits too. -/
theorem exists_of_belowEach {count : Nat} {f : Nat → BitVec n} {ys : Array BitSet}
    (h : c.BelowEach (Array.ofFn fun m : Fin count => .ofBits (f m)) ys) :
    ∃ g : Nat → BitVec n, (ys = Array.ofFn fun m : Fin count => .ofBits (g m)) ∧
      (∀ m, c.Below (f m) (g m)) ∧ ∀ m, count ≤ m → g m = f m := by
  have size : ys.size = count := by simpa using h.size.symm
  have each : ∀ m, ∃ y : BitVec n, (m < count → ys[m]? = some (.ofBits y)) ∧ c.Below (f m) y ∧
      (count ≤ m → y = f m) := by
    intro m
    by_cases lt : m < count
    · have at_m : ys[m]? = some ys[m] := Array.getElem?_eq_getElem (size ▸ lt)
      obtain ⟨y, same, below⟩ :=
        le_ofBits_iff.1 (h.le m _ _ (by rw [Array.getElem?_ofFn, dif_pos lt]) at_m)
      exact ⟨y, fun _ => at_m.trans (congrArg some same), below, fun le => absurd lt (by omega)⟩
    · exact ⟨f m, fun inside => absurd inside lt, below_iff.2 fun _ => id, fun _ => rfl⟩
  choose g bits below beyond using each
  refine ⟨g, ?_, below, beyond⟩
  apply Array.ext
  · simp [size]
  · intro m hm _
    rw [Array.getElem_ofFn]
    have told := bits m (size ▸ hm)
    rw [Array.getElem?_eq_getElem hm] at told
    exact Option.some.inj told

/-- `x` is the greatest set that is below every member of the family. -/
structure IsMeet (c : Confluence) (family : BitVec n → Prop) (x : BitVec n) : Prop where
  below : ∀ y, family y → c.Below x y
  greatest : ∀ z, (∀ y, family y → c.Below z y) → c.Below z x

theorem isMeet_of_tells {family : BitVec n → Prop}
    (h : ∀ i, c.Tells x i ↔ ∃ y, family y ∧ c.Tells y i) : c.IsMeet family x where
  below := by
    intro y hy
    rw [below_iff]
    intro i told
    exact (h i).2 ⟨y, hy, told⟩
  greatest := by
    intro z lower
    rw [below_iff]
    intro i told
    obtain ⟨y, hy, told⟩ := (h i).1 told
    exact below_iff.1 (lower y hy) i told

end Confluence
end FlowAnalysis
