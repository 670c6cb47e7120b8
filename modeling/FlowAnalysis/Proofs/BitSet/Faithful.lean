import FlowAnalysis.Proofs.BitSet.Programs
import FlowAnalysis.Proofs.WordSet.Elements
import Mathlib.Data.Finset.Card
import Mathlib.Data.Finset.Range
import Mathlib.Data.Finset.SDiff
import Mathlib.Data.Finset.Lattice.Lemmas

/-!
Sets of bits, whole or in words, as sets of numbers. Main statement: whatever program builds and
changes them, they are the sets of numbers that the same program makes, and all that they tell is
true of these.
-/
namespace FlowAnalysis

/-- A set of numbers below a size. -/
@[ext]
structure NumberSet where
  size : Nat
  elems : Finset Nat
  inside : ∀ i ∈ elems, i < size

/-- A combination, as one of sets of numbers. -/
def Combination.elems : Combination → Finset Nat → Finset Nat → Finset Nat
  | union, xs, ys => xs ∪ ys
  | inter, xs, ys => xs ∩ ys
  | diff, xs, ys => xs \ ys

theorem Combination.mem_elems {op : Combination} {xs ys : Finset Nat} {i : Nat} :
    i ∈ op.elems xs ys ↔ op.bit (i ∈ xs) (i ∈ ys) = true := by
  cases op <;> simp [elems, bit]

namespace NumberSet

variable {s t : NumberSet} {n i : Nat} {is : List Nat} {op : Combination}

def empty (n : Nat) : NumberSet := ⟨n, ∅, by simp⟩

def full (n : Nat) : NumberSet := ⟨n, Finset.range n, by simp⟩

/-- It faults at the first number that is not below `n`. -/
def ofList (n : Nat) (is : List Nat) : Except Fault NumberSet :=
  match h : is.find? (n ≤ ·) with
  | none => .ok ⟨n, is.toFinset, by simpa using h⟩
  | some i => .error (.outOfUniverse i n)

theorem ofList_of_none (h : is.find? (n ≤ ·) = none) :
    ofList n is = .ok ⟨n, is.toFinset, by simpa using h⟩ := by
  rw [ofList]
  split
  next => rfl
  next _ some =>
    rw [h] at some
    cases some

theorem ofList_of_some (h : is.find? (n ≤ ·) = some i) :
    ofList n is = .error (.outOfUniverse i n) := by
  rw [ofList]
  split
  next none =>
    rw [h] at none
    cases none
  next _ some =>
    rw [h] at some
    cases some
    rfl

/-- The answer is whether `i` is new. -/
def insert (s : NumberSet) (i : Nat) : Except Fault Bool × NumberSet :=
  if h : i < s.size then
    (.ok (i ∉ s.elems), ⟨s.size, Insert.insert i s.elems, by simpa [h] using s.inside⟩)
  else (.error (.outOfUniverse i s.size), s)

theorem insert_of_lt (h : i < s.size) : s.insert i =
    (.ok (i ∉ s.elems), ⟨s.size, Insert.insert i s.elems, by simpa [h] using s.inside⟩) := dif_pos h

theorem insert_of_le (h : s.size ≤ i) : s.insert i = (.error (.outOfUniverse i s.size), s) :=
  dif_neg (Nat.not_lt.2 h)

theorem lt_of_mem_elems (size : s.size = t.size) : ∀ i ∈ op.elems s.elems t.elems, i < s.size := by
  intro i mem
  have either : i ∈ s.elems ∨ i ∈ t.elems := by
    cases op with
    | union => exact Finset.mem_union.1 mem
    | inter => exact Or.inl (Finset.mem_inter.1 mem).1
    | diff => exact Or.inl (Finset.mem_sdiff.1 mem).1
  cases either with
  | inl first => exact s.inside i first
  | inr second => exact size ▸ t.inside i second

/-- The answer is whether the set changes. -/
def combine (op : Combination) (s t : NumberSet) : Except Fault Bool × NumberSet :=
  if h : s.size = t.size then
    (.ok (op.elems s.elems t.elems ≠ s.elems),
      ⟨s.size, op.elems s.elems t.elems, lt_of_mem_elems h⟩)
  else (.error .universeMismatch, s)

theorem combine_of_eq (h : s.size = t.size) : combine op s t =
    (.ok (op.elems s.elems t.elems ≠ s.elems),
      ⟨s.size, op.elems s.elems t.elems, lt_of_mem_elems h⟩) := dif_pos h

theorem combine_of_ne (h : s.size ≠ t.size) : combine op s t = (.error .universeMismatch, s) :=
  dif_neg h

def builder : SetBuilder NumberSet where
  empty := empty
  full := full
  ofList := ofList
  insert := insert
  fill := fun s => full s.size
  combine := combine

end NumberSet

/-- Sets of a kind, with what they tell. -/
structure SetKind (S : Type) extends SetBuilder S where
  size : S → Nat
  contains : S → Nat → Bool
  toList : S → List Nat
  count : S → Nat
  isEmpty : S → Bool
  isFull : S → Bool
  subset : S → S → Except Fault Bool

namespace SetKind

variable {S : Type}

/-- What `s` tells is what is true of `m`. -/
structure Shows (k : SetKind S) (s : S) (m : NumberSet) : Prop where
  size : k.size s = m.size
  contains : ∀ i, k.contains s i = true ↔ i ∈ m.elems
  outside : ∀ i, k.size s ≤ i → k.contains s i = false
  ascending : (k.toList s).Pairwise (· < ·)
  mem_toList : ∀ i, i ∈ k.toList s ↔ i ∈ m.elems
  count : k.count s = m.elems.card
  isEmpty : k.isEmpty s = true ↔ m.elems = ∅
  isFull : k.isFull s = true ↔ m.elems = Finset.range m.size

/-- Programs answer as on sets of numbers and make sets that show these; which are the same and
which are subsets is told right too. -/
structure Faithful (k : SetKind S) : Prop where
  answers : ∀ os, k.answers os = NumberSet.builder.answers os
  shows : ∀ os x, k.Shows (k.sets os x) (NumberSet.builder.sets os x)
  eq_iff : ∀ os x y, k.sets os x = k.sets os y ↔
    (NumberSet.builder.sets os x).size = (NumberSet.builder.sets os y).size ∧
      (NumberSet.builder.sets os x).elems = (NumberSet.builder.sets os y).elems
  subset : ∀ os x y, k.subset (k.sets os x) (k.sets os y) =
    if (NumberSet.builder.sets os x).size = (NumberSet.builder.sets os y).size then
      .ok ((NumberSet.builder.sets os x).elems ⊆ (NumberSet.builder.sets os y).elems)
    else .error .universeMismatch

end SetKind

namespace BitSet

variable {s t : BitSet} {i n : Nat}

def builder : SetBuilder BitSet where
  empty := empty
  full := full
  ofList := ofList
  insert := fun s i => s.inPlace (s.insert i)
  fill := fun s => full s.size
  combine := fun op s t => s.inPlace (combineBy op s t)

def kind : SetKind BitSet where
  toSetBuilder := builder
  size := size
  contains := fun s i => i ∈ s
  toList := toList
  count := count
  isEmpty := isEmpty
  isFull := isFull
  subset := subset

/-- The elements of `s`, as mathematics has them. -/
def numbers (s : BitSet) : NumberSet where
  size := s.size
  elems := s.toList.toFinset
  inside := fun i mem => lt_size_of_mem (by simpa using mem)

@[simp] theorem size_numbers : s.numbers.size = s.size := rfl

@[simp] theorem mem_elems_numbers : i ∈ s.numbers.elems ↔ i ∈ s := by
  simp [numbers]

theorem eq_numbers {m : NumberSet} (size : m.size = s.size) (elems : ∀ i, i ∈ m.elems ↔ i ∈ s) :
    m = s.numbers :=
  NumberSet.ext size (Finset.ext fun i => (elems i).trans mem_elems_numbers.symm)

theorem numbers_injective : Function.Injective numbers := by
  intro s t same
  refine ext_mem (congrArg NumberSet.size same) fun i => ?_
  rw [← mem_elems_numbers, same, mem_elems_numbers]

theorem ofList_numbers (n : Nat) (is : List Nat) :
    NumberSet.ofList n is = numbers <$> ofList n is := by
  rw [ofList, foldlM_insert, size_empty]
  cases first : is.find? (n ≤ ·) with
  | none =>
    have below : ∀ i ∈ is, i < n := by simpa using first
    rw [NumberSet.ofList_of_none first]
    refine congrArg Except.ok (eq_numbers (size_foldl_add (empty n) is).symm fun i => ?_)
    simpa [mem_foldl_add] using below i
  | some i =>
    rw [NumberSet.ofList_of_some first]
    rfl

theorem insert_numbers (s : BitSet) (i : Nat) :
    s.numbers.insert i = Prod.map id numbers (s.inPlace (s.insert i)) := by
  rcases Nat.lt_or_ge i s.size with lt | le
  · have answer : decide (i ∉ s.numbers.elems) = s.lacks i := by simp [lacks, lt]
    rw [insert_of_lt lt, NumberSet.insert_of_lt lt, answer]
    refine Prod.ext rfl (eq_numbers (size_add s i).symm fun j => ?_)
    simp [lt, or_comm]
  · rw [insert_of_le le, NumberSet.insert_of_le le]
    rfl

theorem combine_numbers (op : Combination) (s t : BitSet) :
    s.numbers.combine op t.numbers = Prod.map id numbers (s.inPlace (combineBy op s t)) := by
  by_cases size : t.size = s.size
  · obtain ⟨n, x⟩ := s
    obtain ⟨m, y⟩ := t
    cases size
    have together : (ofBits x).numbers.size = (ofBits y).numbers.size := rfl
    have result : (⟨n, op.elems (ofBits x).numbers.elems (ofBits y).numbers.elems,
        NumberSet.lt_of_mem_elems together⟩ : NumberSet) = (ofBits (op.bits x y)).numbers := by
      refine eq_numbers rfl fun i => ?_
      rw [Combination.mem_elems, mem_ofBits, Combination.getLsbD_bits]
      simp only [mem_elems_numbers, mem_ofBits, Bool.decide_eq_true]
    have changed : decide (op.elems (ofBits x).numbers.elems (ofBits y).numbers.elems ≠
        (ofBits x).numbers.elems) = (ofBits (op.bits x y) != ofBits x) := by
      rw [Bool.eq_iff_iff, decide_eq_true_iff, bne_iff_ne, ← numbers_injective.ne_iff, ← result,
        Ne, Ne, NumberSet.ext_iff]
      exact not_congr (and_iff_right rfl).symm
    rw [NumberSet.combine_of_eq together, changed, combineBy_ofBits]
    exact Prod.ext rfl result
  · rw [combineBy_of_ne op size, NumberSet.combine_of_ne (Ne.symm size)]
    rfl

theorem respects_numbers : SetBuilder.Respects numbers builder NumberSet.builder where
  empty := fun _ => eq_numbers rfl fun _ => iff_of_false (Finset.notMem_empty _) not_mem_empty
  full := fun _ => eq_numbers rfl fun _ => Finset.mem_range.trans mem_full.symm
  ofList := ofList_numbers
  insert := insert_numbers
  fill := fun _ => eq_numbers rfl fun _ => Finset.mem_range.trans mem_full.symm
  combine := combine_numbers

theorem shows_numbers (s : BitSet) : kind.Shows s s.numbers where
  size := rfl
  contains := fun i => decide_eq_true_iff.trans mem_elems_numbers.symm
  outside := fun i beyond => decide_eq_false fun mem => Nat.not_lt.2 beyond (lt_size_of_mem mem)
  ascending := s.pairwise_toList
  mem_toList := fun i => mem_toList.trans mem_elems_numbers.symm
  count := (List.toFinset_card_of_nodup (s.pairwise_toList.imp Nat.ne_of_lt)).symm
  isEmpty := by
    rw [Finset.eq_empty_iff_forall_notMem]
    simp only [mem_elems_numbers]
    exact isEmpty_iff_forall
  isFull := by
    rw [Finset.ext_iff]
    simp only [mem_elems_numbers, Finset.mem_range, size_numbers]
    refine isFull_iff_forall.trans (forall_congr' fun i => ?_)
    exact ⟨fun all => ⟨lt_size_of_mem, all⟩, fun same => same.2⟩

theorem subset_numbers (s t : BitSet) : s.subset t =
    if s.numbers.size = t.numbers.size then .ok (s.numbers.elems ⊆ t.numbers.elems)
    else .error .universeMismatch := by
  split
  next size =>
    rw [subset_of_eq size.symm, Except.ok.injEq, Bool.eq_iff_iff, List.all_eq_true]
    simp only [mem_toList, decide_eq_true_iff, Finset.subset_iff, mem_elems_numbers]
  next size => exact subset_of_ne (Ne.symm size)

theorem respects_id : SetBuilder.Respects id builder builder where
  empty := fun _ => rfl
  full := fun _ => rfl
  ofList := fun n is => (id_map (builder.ofList n is)).symm
  insert := fun _ _ => rfl
  fill := fun _ => rfl
  combine := fun _ _ _ => rfl

/-- What stands for sets of bits in every operation and shows what they show is faithful. -/
theorem faithful_of_respects {S : Type} {k : SetKind S} {f : BitSet → S} (inj : f.Injective)
    (respects : SetBuilder.Respects f builder k.toSetBuilder)
    (shows : ∀ s, k.Shows (f s) s.numbers) (subset : ∀ s t, k.subset (f s) (f t) = s.subset t) :
    k.Faithful where
  answers := fun os => (respects.answers os).trans (respects_numbers.answers os).symm
  shows := by
    intro os x
    rw [respects.sets, respects_numbers.sets]
    exact shows _
  eq_iff := by
    intro os x y
    rw [respects.sets, respects.sets, respects_numbers.sets, respects_numbers.sets, inj.eq_iff,
      ← NumberSet.ext_iff, numbers_injective.eq_iff]
  subset := by
    intro os x y
    rw [respects.sets, respects.sets, respects_numbers.sets, respects_numbers.sets, subset,
      subset_numbers]

end BitSet

namespace WordSet

def builder : SetBuilder WordSet where
  empty := empty
  full := full
  ofList := ofList
  insert := fun s i => insert i s
  fill := fill
  combine := fun op s t => combine op t s

def kind : SetKind WordSet where
  toSetBuilder := builder
  size := size
  contains := contains
  toList := toList
  count := count
  isEmpty := isEmpty
  isFull := isFull
  subset := subset

theorem respects_packed : SetBuilder.Respects packed BitSet.builder builder where
  empty := empty_eq
  full := full_eq
  ofList := ofList_eq
  insert := insert_packed
  fill := fill_packed
  combine := combine_packed

theorem shows_packed (s : BitSet) : kind.Shows (packed s) s.numbers := by
  have shows := BitSet.shows_numbers s
  exact {
    size := rfl
    contains := fun i => (Bool.eq_iff_iff.1 contains_packed).trans (shows.contains i)
    outside := fun i beyond => contains_packed.trans (shows.outside i beyond)
    ascending := pairwise_drain
    mem_toList := fun i =>
      (Iff.of_eq (congrArg (i ∈ ·) (toList_packed s))).trans (shows.mem_toList i)
    count := (count_packed s).trans shows.count
    isEmpty := (Bool.eq_iff_iff.1 (isEmpty_packed s)).trans shows.isEmpty
    isFull := (Bool.eq_iff_iff.1 (isFull_packed s)).trans shows.isFull }

end WordSet

/-- Sets in words and sets of bits are sets of numbers, and no program sets a bit beyond the
universe. -/
theorem bitSets_faithful : WordSet.kind.Faithful ∧ BitSet.kind.Faithful ∧
    ∀ os x, (WordSet.builder.sets os x).WellFormed := by
  refine ⟨?_, ?_, ?_⟩
  · exact BitSet.faithful_of_respects WordSet.packed_injective WordSet.respects_packed
      WordSet.shows_packed WordSet.subset_packed
  · exact BitSet.faithful_of_respects Function.injective_id BitSet.respects_id
      BitSet.shows_numbers fun _ _ => rfl
  · intro os x
    rw [WordSet.respects_packed.sets]
    exact WordSet.wellFormed_packed _

end FlowAnalysis
