import FlowAnalysis.Analysis.AvailableExprs
import FlowAnalysis.Analysis.LiveVariables
import FlowAnalysis.Analysis.ReachingDefs
import FlowAnalysis.Proofs.Confluence.Dual
import FlowAnalysis.Proofs.WordSet.Elements
import Mathlib.Data.Set.Basic

/-!
The lattices of sets. Main statement: the sets of a universe, as those of bits or of words, are a
lattice under either confluence, ordered by what they have for available expressions and by what
they have not for the other analyses.
-/
namespace FlowAnalysis

/-- The operations of a lattice of sets. Its elements are those of one universe, so all but the
tests take one to tell which. -/
structure SetLattice (S : Type) where
  contains : S → Nat → Bool
  meet : S → S → Except Fault S
  join : S → S → Except Fault S
  le : S → S → Except Fault Bool
  topOf : S → S
  bottomOf : S → S
  isTop : S → Bool
  isBottom : S → Bool

/-- The lattices: of sets as such, and of the states of each analysis. -/
inductive SetDomain
  | plain
  | availableExprs (g : FlowGraph) (scope : Scope)
  | reachingDefs (g : FlowGraph)
  | liveVariables (g : FlowGraph)

namespace SetDomain

/-- Sets as such meet as what holds along some path. -/
def confluence : SetDomain → Confluence
  | plain => .union
  | availableExprs g scope => (g.availableExprs scope).confluence
  | reachingDefs g => g.reachingDefs.confluence
  | liveVariables g => g.liveVariables.confluence

/-- The order of what sets have. -/
def Orders : SetDomain → Set Nat → Set Nat → Prop
  | plain, xs, ys => ys ⊆ xs
  | availableExprs _ _, xs, ys => xs ⊆ ys
  | reachingDefs _, xs, ys => ys ⊆ xs
  | liveVariables _, xs, ys => ys ⊆ xs

end SetDomain

namespace SetLattice

variable {S : Type}

/-- The laws of a meet, or of a join, with what is neutral in it and what absorbs. -/
structure Semilattice (belongs : S → Prop) (meet : S → S → Except Fault S) (top bottom : S → S) :
    Prop where
  total : ∀ s t, belongs s → belongs t → ∃ r, belongs r ∧ meet s t = .ok r
  idem : ∀ s, belongs s → meet s s = .ok s
  comm : ∀ s t, belongs s → belongs t → meet s t = meet t s
  assoc : ∀ s t u, belongs s → belongs t → belongs u →
    (do meet s (← meet t u)) = (do meet (← meet s t) u)
  neutral : ∀ s t, belongs s → belongs t → meet s (top t) = .ok s
  absorbing : ∀ s t, belongs s → belongs t → meet s (bottom t) = .ok (bottom t)

/-- The laws of a lattice of the sets that belong, ordered as `d` says. -/
structure Laws (d : SetDomain) (belongs : S → Prop) (L : SetLattice S) : Prop where
  meet : Semilattice belongs L.meet L.topOf L.bottomOf
  join : Semilattice belongs L.join L.bottomOf L.topOf
  meet_join : ∀ s t, belongs s → belongs t → (do L.meet s (← L.join s t)) = .ok s
  join_meet : ∀ s t, belongs s → belongs t → (do L.join s (← L.meet s t)) = .ok s
  topOf : ∀ s, belongs s → belongs (L.topOf s)
  bottomOf : ∀ s, belongs s → belongs (L.bottomOf s)
  isTop : ∀ s, belongs s → (L.isTop s = true ↔ s = L.topOf s)
  isBottom : ∀ s, belongs s → (L.isBottom s = true ↔ s = L.bottomOf s)
  le_total : ∀ s t, belongs s → belongs t → ∃ b, L.le s t = .ok b
  le_refl : ∀ s, belongs s → L.le s s = .ok true
  le_antisymm : ∀ s t, belongs s → belongs t → L.le s t = .ok true → L.le t s = .ok true → s = t
  le_trans : ∀ s t u, belongs s → belongs t → belongs u →
    L.le s t = .ok true → L.le t u = .ok true → L.le s u = .ok true
  meet_le : ∀ s t m, belongs s → belongs t → L.meet s t = .ok m →
    L.le m s = .ok true ∧ L.le m t = .ok true
  le_meet : ∀ s t m u, belongs s → belongs t → belongs u → L.meet s t = .ok m →
    L.le u s = .ok true → L.le u t = .ok true → L.le u m = .ok true
  le_join : ∀ s t j, belongs s → belongs t → L.join s t = .ok j →
    L.le s j = .ok true ∧ L.le t j = .ok true
  join_le : ∀ s t j u, belongs s → belongs t → belongs u → L.join s t = .ok j →
    L.le s u = .ok true → L.le t u = .ok true → L.le j u = .ok true
  le_iff : ∀ s t, belongs s → belongs t → (L.le s t = .ok true ↔
    d.Orders {i | L.contains s i = true} {i | L.contains t i = true})

end SetLattice

theorem SetDomain.below_iff_orders {d : SetDomain} {n : Nat} {x y : BitVec n} :
    d.confluence.Below x y ↔ d.Orders {i | x.getLsbD i = true} {i | y.getLsbD i = true} := by
  have may : Confluence.union.Below x y ↔ {i | y.getLsbD i = true} ⊆ {i | x.getLsbD i = true} := by
    rw [Confluence.below_iff]
    exact forall_congr' fun i => by rw [Confluence.tells_union, Confluence.tells_union]; rfl
  have must : Confluence.intersection.Below x y ↔
      {i | x.getLsbD i = true} ⊆ {i | y.getLsbD i = true} := by
    rw [← Confluence.below_dual, Confluence.dual, Confluence.below_iff]
    exact forall_congr' fun i => by rw [Confluence.tells_union, Confluence.tells_union]; rfl
  cases d with
  | plain => exact may
  | availableExprs g scope => exact must
  | reachingDefs g => exact may
  | liveVariables g => exact may

namespace SetLattice

open Confluence

variable {S : Type} {n : Nat} {c : Confluence} {L : SetLattice S} {f : BitVec n → S}

/-- The operations do with `f x` what `c` does with `x`. -/
structure Represents (c : Confluence) (f : BitVec n → S) (L : SetLattice S) : Prop where
  injective : f.Injective
  contains : ∀ x i, L.contains (f x) i = x.getLsbD i
  meet : ∀ x y, L.meet (f x) (f y) = .ok (f (c.meetBits x y))
  join : ∀ x y, L.join (f x) (f y) = .ok (f (c.dual.meetBits x y))
  le : ∀ x y, ∃ b, L.le (f x) (f y) = .ok b ∧ (b = true ↔ c.Below x y)
  topOf : ∀ x, L.topOf (f x) = f (c.top n)
  bottomOf : ∀ x, L.bottomOf (f x) = f (c.dual.top n)
  isTop : ∀ x, L.isTop (f x) = true ↔ x = c.top n
  isBottom : ∀ x, L.isBottom (f x) = true ↔ x = c.dual.top n

theorem semilattice {meet : S → S → Except Fault S} {top bottom : S → S}
    (meet_eq : ∀ x y, meet (f x) (f y) = .ok (f (c.meetBits x y)))
    (top_eq : ∀ x, top (f x) = f (c.top n)) (bottom_eq : ∀ x, bottom (f x) = f (c.dual.top n)) :
    Semilattice (· ∈ Set.range f) meet top bottom where
  total := by
    rintro _ _ ⟨x, rfl⟩ ⟨y, rfl⟩
    exact ⟨_, ⟨_, rfl⟩, meet_eq x y⟩
  idem := by
    rintro _ ⟨x, rfl⟩
    rw [meet_eq, meetBits_self]
  comm := by
    rintro _ _ ⟨x, rfl⟩ ⟨y, rfl⟩
    rw [meet_eq, meet_eq, meetBits_comm]
  assoc := by
    rintro _ _ _ ⟨x, rfl⟩ ⟨y, rfl⟩ ⟨z, rfl⟩
    rw [meet_eq, meet_eq]
    change meet (f x) (f _) = meet (f _) (f z)
    rw [meet_eq, meet_eq, meetBits_assoc]
  neutral := by
    rintro _ _ ⟨x, rfl⟩ ⟨y, rfl⟩
    rw [top_eq, meet_eq, meetBits_comm, top_meetBits]
  absorbing := by
    rintro _ _ ⟨x, rfl⟩ ⟨y, rfl⟩
    rw [bottom_eq, meet_eq, ← Confluence.bottom_eq, meetBits_bottom]

theorem Represents.le_iff (h : Represents c f L) (x y : BitVec n) :
    L.le (f x) (f y) = .ok true ↔ c.Below x y := by
  obtain ⟨b, told, below⟩ := h.le x y
  rw [told, Except.ok.injEq, below]

theorem Represents.laws {d : SetDomain} (h : Represents d.confluence f L) :
    Laws d (· ∈ Set.range f) L where
  meet := semilattice h.meet h.topOf h.bottomOf
  join := by
    refine semilattice h.join h.bottomOf fun x => ?_
    rw [h.topOf, dual_dual]
  meet_join := by
    rintro _ _ ⟨x, rfl⟩ ⟨y, rfl⟩
    rw [h.join]
    change L.meet (f x) (f _) = _
    rw [h.meet, meetBits_joinBits]
  join_meet := by
    rintro _ _ ⟨x, rfl⟩ ⟨y, rfl⟩
    rw [h.meet]
    change L.join (f x) (f _) = _
    rw [h.join, joinBits_meetBits]
  topOf := by
    rintro _ ⟨x, rfl⟩
    exact ⟨_, (h.topOf x).symm⟩
  bottomOf := by
    rintro _ ⟨x, rfl⟩
    exact ⟨_, (h.bottomOf x).symm⟩
  isTop := by
    rintro _ ⟨x, rfl⟩
    rw [h.isTop, h.topOf, h.injective.eq_iff]
  isBottom := by
    rintro _ ⟨x, rfl⟩
    rw [h.isBottom, h.bottomOf, h.injective.eq_iff]
  le_total := by
    rintro _ _ ⟨x, rfl⟩ ⟨y, rfl⟩
    obtain ⟨b, told, -⟩ := h.le x y
    exact ⟨b, told⟩
  le_refl := by
    rintro _ ⟨x, rfl⟩
    rw [h.le_iff, below_iff]
    exact fun _ => id
  le_antisymm := by
    rintro _ _ ⟨x, rfl⟩ ⟨y, rfl⟩
    rw [h.le_iff, h.le_iff, below_iff, below_iff]
    exact fun below above => congrArg f (ext_tells fun i => ⟨above i, below i⟩)
  le_trans := by
    rintro _ _ _ ⟨x, rfl⟩ ⟨y, rfl⟩ ⟨z, rfl⟩
    rw [h.le_iff, h.le_iff, h.le_iff, below_iff, below_iff, below_iff]
    exact fun first second i told => first i (second i told)
  meet_le := by
    rintro _ _ m ⟨x, rfl⟩ ⟨y, rfl⟩ met
    obtain rfl := Except.ok.inj ((h.meet x y).symm.trans met)
    rw [h.le_iff, h.le_iff]
    exact below_meetBits.1 below_self
  le_meet := by
    rintro _ _ m _ ⟨x, rfl⟩ ⟨y, rfl⟩ ⟨z, rfl⟩ met
    obtain rfl := Except.ok.inj ((h.meet x y).symm.trans met)
    rw [h.le_iff, h.le_iff, h.le_iff]
    exact fun first second => below_meetBits.2 ⟨first, second⟩
  le_join := by
    rintro _ _ j ⟨x, rfl⟩ ⟨y, rfl⟩ joined
    obtain rfl := Except.ok.inj ((h.join x y).symm.trans joined)
    rw [h.le_iff, h.le_iff]
    exact joinBits_below.1 below_self
  join_le := by
    rintro _ _ j _ ⟨x, rfl⟩ ⟨y, rfl⟩ ⟨z, rfl⟩ joined
    obtain rfl := Except.ok.inj ((h.join x y).symm.trans joined)
    rw [h.le_iff, h.le_iff, h.le_iff]
    exact fun first second => joinBits_below.2 ⟨first, second⟩
  le_iff := by
    rintro _ _ ⟨x, rfl⟩ ⟨y, rfl⟩
    simp only [h.le_iff, h.contains]
    exact d.below_iff_orders

/-- Sets of bits under `c`. -/
def bits (c : Confluence) : SetLattice BitSet where
  contains := fun s i => i ∈ s
  meet := c.meet
  join := c.join
  le := c.le
  topOf := c.topOf
  bottomOf := c.bottomOf
  isTop := c.isTop
  isBottom := c.isBottom

/-- Sets of words under `c`. -/
def words (c : Confluence) : SetLattice WordSet where
  contains := WordSet.contains
  meet := WordSet.meet c
  join := WordSet.join c
  le := WordSet.le c
  topOf := WordSet.topOf c
  bottomOf := WordSet.bottomOf c
  isTop := WordSet.isTop c
  isBottom := WordSet.isBottom c

theorem represents_bits (c : Confluence) :
    Represents c (BitSet.ofBits : BitVec n → BitSet) (bits c) where
  injective := fun x y same => by simpa using same
  contains := fun x i => Bool.decide_eq_true
  meet := meet_ofBits c
  join := fun x y => (join_eq (.ofBits x) (.ofBits y)).trans (meet_ofBits c.dual x y)
  le := by
    intro x y
    refine ⟨BitSet.ofBits (c.meetBits x y) == .ofBits x, ?_, ?_⟩
    · change (· == BitSet.ofBits x) <$> c.meet (.ofBits x) (.ofBits y) = _
      rw [meet_ofBits]
      rfl
    · simp [Below]
  topOf := fun x => rfl
  bottomOf := fun x => congrArg BitSet.ofBits bottom_eq
  isTop := fun x => isTop_ofBits
  isBottom := fun x => by
    change c.isBottom (.ofBits x) = true ↔ _
    rw [isBottom_eq, isTop_ofBits]

end SetLattice

namespace WordSet

variable {n : Nat} {c : Confluence}

theorem combined_packed (op : Combination) (x y : BitVec n) :
    combined op (packed (.ofBits x)) (packed (.ofBits y)) =
      .ok (packed (.ofBits (op.bits x y))) := by
  rw [combined, combine_packed, BitSet.combineBy_ofBits]
  rfl

theorem meet_packed (c : Confluence) (x y : BitVec n) :
    meet c (packed (.ofBits x)) (packed (.ofBits y)) = .ok (packed (.ofBits (c.meetBits x y))) := by
  cases c with
  | union => exact combined_packed .union x y
  | intersection => exact combined_packed .inter x y

theorem join_eq (s t : WordSet) : join c s t = meet c.dual s t := by
  cases c <;> rfl

theorem topOf_packed (s : BitSet) : topOf c (packed s) = packed (c.topOf s) := by
  cases c with
  | union => exact empty_eq s.size
  | intersection => exact full_eq s.size

theorem bottomOf_packed (s : BitSet) : bottomOf c (packed s) = packed (c.bottomOf s) := by
  cases c with
  | union => exact full_eq s.size
  | intersection => exact empty_eq s.size

theorem isTop_packed (s : BitSet) : isTop c (packed s) = c.isTop s := by
  cases c with
  | union => exact isEmpty_packed s
  | intersection => exact isFull_packed s

theorem isBottom_packed (s : BitSet) : isBottom c (packed s) = c.isBottom s := by
  cases c with
  | union => exact isFull_packed s
  | intersection => exact isEmpty_packed s

end WordSet

namespace SetLattice

open WordSet

variable {n : Nat} {c : Confluence}

theorem represents_words (c : Confluence) :
    Represents c (fun x : BitVec n => packed (.ofBits x)) (words c) where
  injective := packed_injective.comp (represents_bits c).injective
  contains := fun x i => contains_packed.trans ((represents_bits c).contains x i)
  meet := meet_packed c
  join := fun x y => (join_eq _ _).trans (meet_packed c.dual x y)
  le := by
    intro x y
    refine ⟨packed (.ofBits (c.meetBits x y)) == packed (.ofBits x), ?_, ?_⟩
    · change (· == packed (.ofBits x)) <$>
        WordSet.meet c (packed (.ofBits x)) (packed (.ofBits y)) = _
      rw [meet_packed]
      rfl
    · rw [beq_iff_eq, packed_injective.eq_iff]
      simp [Confluence.Below]
  topOf := fun x => (topOf_packed _).trans (congrArg packed ((represents_bits c).topOf x))
  bottomOf := fun x => (bottomOf_packed _).trans (congrArg packed ((represents_bits c).bottomOf x))
  isTop := fun x => (Bool.eq_iff_iff.1 (isTop_packed _)).trans ((represents_bits c).isTop x)
  isBottom := fun x =>
    (Bool.eq_iff_iff.1 (isBottom_packed _)).trans ((represents_bits c).isBottom x)

end SetLattice

/-- The sets of a universe are a lattice, as bits and as words without bits beyond it. -/
theorem lattice_laws (d : SetDomain) (n : Nat) :
    SetLattice.Laws d (fun s : BitSet => s.size = n) (.bits d.confluence) ∧
    SetLattice.Laws d (fun w : WordSet => w.WellFormed ∧ w.size = n) (.words d.confluence) := by
  have bits : ∀ s : BitSet, s ∈ Set.range (BitSet.ofBits : BitVec n → BitSet) ↔ s.size = n := by
    intro s
    constructor
    · rintro ⟨x, rfl⟩
      rfl
    · rintro rfl
      exact ⟨s.bits, rfl⟩
  have words : ∀ w : WordSet, w ∈ Set.range (fun x : BitVec n => WordSet.packed (.ofBits x)) ↔
      w.WellFormed ∧ w.size = n := by
    intro w
    rw [WordSet.wellFormed_iff]
    constructor
    · rintro ⟨x, rfl⟩
      exact ⟨⟨_, rfl⟩, rfl⟩
    · rintro ⟨⟨s, rfl⟩, rfl⟩
      exact ⟨s.bits, rfl⟩
  constructor
  · rw [← funext fun s => propext (bits s)]
    exact (SetLattice.represents_bits _).laws
  · rw [← funext fun w => propext (words w)]
    exact (SetLattice.represents_words _).laws

end FlowAnalysis
