import FlowAnalysis.Fault

/-!
Finite sets of numbers below a size, their universe, held as one bit a number. Sets of different
universes are different and do not combine.
-/
namespace FlowAnalysis

structure BitSet where
  size : Nat
  bits : BitVec size
  deriving DecidableEq

namespace BitSet

instance : Membership Nat BitSet := ⟨fun s i => s.bits.getLsbD i = true⟩

instance (i : Nat) (s : BitSet) : Decidable (i ∈ s) :=
  inferInstanceAs (Decidable (s.bits.getLsbD i = true))

theorem mem_def {i : Nat} {s : BitSet} : i ∈ s ↔ s.bits.getLsbD i = true := Iff.rfl

theorem lt_size_of_mem {i : Nat} {s : BitSet} (h : i ∈ s) : i < s.size :=
  BitVec.lt_of_getLsbD h

/-- A set is its universe and its elements. -/
theorem ext_mem {s t : BitSet} (size : s.size = t.size) (mem : ∀ i, i ∈ s ↔ i ∈ t) : s = t := by
  obtain ⟨n, x⟩ := s
  obtain ⟨m, y⟩ := t
  cases size
  have bits : x = y := BitVec.eq_of_getLsbD_eq fun i _ => Bool.eq_iff_iff.2 (mem i)
  rw [bits]

/-- The set of the bits of `x`. -/
abbrev ofBits {n : Nat} (x : BitVec n) : BitSet := ⟨n, x⟩

@[simp] theorem mem_ofBits {n i : Nat} {x : BitVec n} : i ∈ ofBits x ↔ x.getLsbD i = true := Iff.rfl

/-- No element of a universe of `n`. -/
def empty (n : Nat) : BitSet := ofBits 0#n

/-- Every element of a universe of `n`. -/
def full (n : Nat) : BitSet := ofBits (BitVec.allOnes n)

instance : Inhabited BitSet := ⟨empty 0⟩

@[simp] theorem size_empty (n : Nat) : (empty n).size = n := rfl

@[simp] theorem not_mem_empty {n i : Nat} : i ∉ empty n := by simp [empty]

@[simp] theorem mem_full {n i : Nat} : i ∈ full n ↔ i < n := by simp [full]

/-- The elements, ascending. -/
def toList (s : BitSet) : List Nat := (List.range s.size).filter (· ∈ s)

@[simp] theorem mem_toList {i : Nat} {s : BitSet} : i ∈ s.toList ↔ i ∈ s := by
  simpa [toList] using lt_size_of_mem

theorem pairwise_toList (s : BitSet) : s.toList.Pairwise (· < ·) :=
  List.pairwise_lt_range.filter _

def count (s : BitSet) : Nat := s.toList.length

def isEmpty (s : BitSet) : Bool := s.bits == 0#s.size

def isFull (s : BitSet) : Bool := s.count == s.size

/-- The elements in braces, ascending: {5, 63}. -/
def text (s : BitSet) : String :=
  "\x7b" ++ ", ".intercalate (s.toList.map toString) ++ "\x7d"

/-- The set with `i` as well, if its universe has `i`. -/
def add (s : BitSet) (i : Nat) : BitSet :=
  if i < s.size then ⟨s.size, s.bits ||| BitVec.twoPow s.size i⟩ else s

@[simp] theorem size_add (s : BitSet) (i : Nat) : (s.add i).size = s.size := by
  unfold add; split <;> rfl

@[simp] theorem mem_add {s : BitSet} {i j : Nat} :
    j ∈ s.add i ↔ j ∈ s ∨ j = i ∧ i < s.size := by
  unfold add
  split
  next h => simp [mem_def, BitVec.getLsbD_or, BitVec.getLsbD_twoPow, h, @eq_comm _ i j]
  next h => simp [h]

/-- Whether `i` belongs to the universe of `s` and not to `s`. -/
def lacks (s : BitSet) (i : Nat) : Bool := i < s.size && !(i ∈ s : Bool)

@[simp] theorem lacks_iff {s : BitSet} {i : Nat} : s.lacks i = true ↔ i < s.size ∧ i ∉ s := by
  simp [lacks]

/-- The number of elements of the universe that `s` has not. -/
def room (s : BitSet) : Nat := (List.range s.size).countP s.lacks

private theorem countP_lt {p q : Nat → Bool} {x : Nat} {xs : List Nat}
    (le : ∀ y ∈ xs, q y = true → p y = true) (hx : x ∈ xs) (hp : p x = true) (hq : q x = false) :
    xs.countP q < xs.countP p := by
  induction xs with
  | nil => cases hx
  | cons y ys ih =>
    have tail : ys.countP q ≤ ys.countP p :=
      List.countP_mono_left fun z hz => le z (List.mem_cons_of_mem _ hz)
    simp only [List.countP_cons]
    rcases List.mem_cons.1 hx with rfl | hx
    · simp only [hp, hq]
      grind
    · have head := le y List.mem_cons_self
      have := ih (fun z hz => le z (List.mem_cons_of_mem _ hz)) hx
      grind

/-- A new element takes room. -/
theorem room_add_lt {s : BitSet} {i : Nat} (h : s.lacks i = true) : (s.add i).room < s.room := by
  unfold room
  rw [size_add]
  have new := lacks_iff.1 h
  refine countP_lt (fun j _ hj => ?_) (List.mem_range.2 new.1) h ?_
  · rw [lacks_iff] at hj ⊢
    exact ⟨by simpa using hj.1, fun hs => hj.2 (mem_add.2 (Or.inl hs))⟩
  · rw [Bool.eq_false_iff, Ne, lacks_iff]
    exact fun hi => hi.2 (mem_add.2 (Or.inr ⟨rfl, new.1⟩))

/-- The set with `i` as well, and whether `i` is new. -/
def insert (s : BitSet) (i : Nat) : Except Fault (BitSet × Bool) :=
  if i < s.size then .ok (s.add i, s.lacks i) else .error (.outOfUniverse i s.size)

theorem insert_of_lt {s : BitSet} {i : Nat} (h : i < s.size) :
    s.insert i = .ok (s.add i, s.lacks i) := if_pos h

theorem insert_of_le {s : BitSet} {i : Nat} (h : s.size ≤ i) :
    s.insert i = .error (.outOfUniverse i s.size) := if_neg (Nat.not_lt.2 h)

/-- The set of the members of `xs`. -/
def ofList (n : Nat) (xs : List Nat) : Except Fault BitSet :=
  xs.foldlM (fun s i => (·.1) <$> s.insert i) (empty n)

/-- The bits of `s` as a set of the universe `n`. -/
def within (s : BitSet) (n : Nat) : Except Fault (BitVec n) :=
  if h : s.size = n then .ok (s.bits.cast h) else .error .universeMismatch

theorem within_of_ne {s : BitSet} {n : Nat} (h : s.size ≠ n) :
    s.within n = .error .universeMismatch := dif_neg h

@[simp] theorem within_ofBits {n : Nat} (x : BitVec n) : (ofBits x).within n = .ok x :=
  dif_pos rfl

/-- What `f` makes of the bits of two sets of one universe, and whether that differs from the
first. -/
def combine (s t : BitSet) (f : BitVec s.size → BitVec s.size → BitVec s.size) :
    Except Fault (BitSet × Bool) := do
  let r : BitSet := ⟨s.size, f s.bits (← t.within s.size)⟩
  return (r, r != s)

theorem combine_of_ne {s t : BitSet} {f : BitVec s.size → BitVec s.size → BitVec s.size}
    (h : t.size ≠ s.size) : s.combine t f = .error .universeMismatch := by
  rw [combine, within_of_ne h]; rfl

@[simp] theorem combine_ofBits {n : Nat} (x y : BitVec n) (f : BitVec n → BitVec n → BitVec n) :
    (ofBits x).combine (ofBits y) f = .ok (ofBits (f x y), ofBits (f x y) != ofBits x) := by
  have bits : (ofBits y).within (ofBits x).size = .ok y := within_ofBits y
  rw [combine, bits]
  rfl

/-- The elements of either set, and whether `s` lacked any. -/
def union (s t : BitSet) : Except Fault (BitSet × Bool) := s.combine t (· ||| ·)

/-- The elements of both sets, and whether `s` had any other. -/
def inter (s t : BitSet) : Except Fault (BitSet × Bool) := s.combine t (· &&& ·)

/-- The elements of `s` alone, and whether it had any other. -/
def diff (s t : BitSet) : Except Fault (BitSet × Bool) := s.combine t (· &&& ~~~ ·)

/-- Whether every element of `s` is one of `t`. -/
def subset (s t : BitSet) : Except Fault Bool := do
  return (s.bits &&& ~~~(← t.within s.size)) == 0#s.size

@[simp] theorem union_ofBits {n : Nat} (x y : BitVec n) :
    (ofBits x).union (ofBits y) = .ok (ofBits (x ||| y), ofBits (x ||| y) != ofBits x) :=
  combine_ofBits x y _

@[simp] theorem inter_ofBits {n : Nat} (x y : BitVec n) :
    (ofBits x).inter (ofBits y) = .ok (ofBits (x &&& y), ofBits (x &&& y) != ofBits x) :=
  combine_ofBits x y _

@[simp] theorem diff_ofBits {n : Nat} (x y : BitVec n) :
    (ofBits x).diff (ofBits y) = .ok (ofBits (x &&& ~~~y), ofBits (x &&& ~~~y) != ofBits x) :=
  combine_ofBits x y _

end BitSet
end FlowAnalysis
