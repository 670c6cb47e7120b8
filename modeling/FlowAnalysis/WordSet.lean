import FlowAnalysis.Confluence

/-!
Bit sets in words of 64 bits: number `i` is bit `i % 64` of word `i / 64`. Sets change in place, and
what looks at words as wholes is right only while no bit beyond the universe is set.
-/
namespace FlowAnalysis

abbrev Word : Type := BitVec 64

namespace Word

/-- All bits of `x` but the lowest that is set. -/
def dropLowest (x : Word) : Word := x &&& (x - 1)

theorem getLsbD_dropLowest {x : Word} {i : Nat} : x.dropLowest.getLsbD i = true ↔
    x.getLsbD i = true ∧ ∃ j < i, x.getLsbD j = true := by
  have pred : x - 1 = ~~~(-x) := (BitVec.not_neg x).symm
  rw [dropLowest, pred, BitVec.getLsbD_and, BitVec.getLsbD_not, BitVec.getLsbD_neg]
  by_cases lt : i < 64
  · cases x.getLsbD i <;> simp [lt]
  · simp [BitVec.getLsbD_of_ge x i (Nat.le_of_not_lt lt)]

theorem toNat_dropLowest_lt {x : Word} (some : x ≠ 0) : x.dropLowest.toNat < x.toNat := by
  have pos : 0 < x.toNat := Nat.pos_of_ne_zero fun zero => some (BitVec.eq_of_toNat_eq zero)
  have pred : (x - 1).toNat = x.toNat - 1 := BitVec.toNat_sub_of_le (x := x) (y := 1) pos
  calc x.dropLowest.toNat ≤ (x - 1).toNat := by
        rw [dropLowest, BitVec.toNat_and]
        exact Nat.and_le_right
    _ < x.toNat := by omega

end Word

structure WordSet where
  words : List Word
  size : Nat
  deriving DecidableEq

/-- What changes one set by another of its universe. -/
inductive Combination
  | union | inter | diff
  deriving DecidableEq

/-- A combination, bit for bit. -/
def Combination.bits {n : Nat} : Combination → BitVec n → BitVec n → BitVec n
  | union, x, y => x ||| y
  | inter, x, y => x &&& y
  | diff, x, y => x &&& ~~~y

namespace WordSet

/-- An operation on a set in place. After a fault the set is as the operation has left it. -/
abbrev InPlace (α : Type) : Type := ExceptT Fault (StateM WordSet) α

namespace InPlace

variable {α β : Type} {x : InPlace α} {f : α → InPlace β} {s t : WordSet}

theorem bind_of_ok {a : α} (h : x s = (.ok a, t)) : (x >>= f) s = f a t := by
  change (match x s with | (r, t) => ExceptT.bindCont f r t : Except Fault β × WordSet) = _
  rw [h]
  rfl

theorem bind_of_error {e : Fault} (h : x s = (.error e, t)) : (x >>= f) s = (.error e, t) := by
  change (match x s with | (r, t) => ExceptT.bindCont f r t : Except Fault β × WordSet) = _
  rw [h]
  rfl

end InPlace

/-- The number of words for a universe of `n`. -/
def wordCount (n : Nat) : Nat := (n + 63) / 64

def word (s : WordSet) (k : Nat) : Word := s.words.getD k 0

/-- The bit of number `i` in its word. -/
def mask (i : Nat) : Word := 1#64 <<< (i % 64)

def empty (n : Nat) : WordSet := ⟨List.replicate (wordCount n) 0, n⟩

/-- Set all bits, but of the last word those of the universe alone. -/
def fill (s : WordSet) : WordSet :=
  let ones := s.words.map fun _ => BitVec.allOnes 64
  let tail := s.size % 64
  { s with words :=
      if tail = 0 then ones else ones.modify (ones.length - 1) fun _ => 1#64 <<< tail - 1 }

def full (n : Nat) : WordSet := (empty n).fill

def contains (s : WordSet) (i : Nat) : Bool := i < s.size && s.word (i / 64) &&& mask i != 0

/-- The answer is whether `i` is new. -/
def insert (i : Nat) : InPlace Bool := do
  let s ← get
  unless i < s.size do throw (.outOfUniverse i s.size)
  let old := s.word (i / 64)
  set { s with words := s.words.set (i / 64) (old ||| mask i) }
  return old &&& mask i == 0

theorem insert_of_lt {s : WordSet} {i : Nat} (h : i < s.size) : insert i s =
    (.ok (s.word (i / 64) &&& mask i == 0),
      { s with words := s.words.set (i / 64) (s.word (i / 64) ||| mask i) }) := by
  change (ite (i < s.size) _ _ : InPlace Bool) s = _
  rw [if_pos h]
  rfl

theorem insert_of_le {s : WordSet} {i : Nat} (h : s.size ≤ i) :
    insert i s = (.error (.outOfUniverse i s.size), s) := by
  change (ite (i < s.size) _ _ : InPlace Bool) s = _
  rw [if_neg (Nat.not_lt.2 h)]
  rfl

/-- Put in numbers one by one. -/
def insertAll : List Nat → InPlace Unit
  | [] => pure ()
  | i :: xs => do
    discard (insert i)
    insertAll xs

def ofList (n : Nat) (xs : List Nat) : Except Fault WordSet :=
  match insertAll xs (empty n) with
  | (.ok (), s) => .ok s
  | (.error f, _) => .error f

/-- The words of `xs`, each combined with the word of `ys` at its place if there is one, and whether
any word changes. -/
def combineWords (op : Combination) : List Word → List Word → List Word × Bool
  | x :: xs, y :: ys =>
    let (rest, changed) := combineWords op xs ys
    (op.bits x y :: rest, x != op.bits x y || changed)
  | xs, _ => (xs, false)

/-- The answer is whether the set changes. -/
def combine (op : Combination) (t : WordSet) : InPlace Bool := do
  let s ← get
  unless s.size = t.size do throw .universeMismatch
  let (words, changed) := combineWords op s.words t.words
  set { s with words := words }
  return changed

theorem combine_of_eq {op : Combination} {s t : WordSet} (h : s.size = t.size) : combine op t s =
    (.ok (combineWords op s.words t.words).2,
      { s with words := (combineWords op s.words t.words).1 }) := by
  change (ite (s.size = t.size) _ _ : InPlace Bool) s = _
  rw [if_pos h]
  rfl

theorem combine_of_ne {op : Combination} {s t : WordSet} (h : s.size ≠ t.size) :
    combine op t s = (.error .universeMismatch, s) := by
  change (ite (s.size = t.size) _ _ : InPlace Bool) s = _
  rw [if_neg h]
  rfl

/-- A copy of `s` combined with `t`. -/
def combined (op : Combination) (s t : WordSet) : Except Fault WordSet :=
  match combine op t s with
  | (.ok _, r) => .ok r
  | (.error f, _) => .error f

def isEmpty (s : WordSet) : Bool := s.words.all (· == 0)

def count (s : WordSet) : Nat := s.words.foldl (fun n w => n + w.cpop.toNat) 0

def isFull (s : WordSet) : Bool := s.count == s.size

def subset (s t : WordSet) : Except Fault Bool :=
  if s.size = t.size then .ok ((s.words.zip t.words).all fun p => p.1 &&& ~~~p.2 == 0)
  else .error .universeMismatch

/-- A place in an iteration: a word, and those of its bits that are still to come. -/
structure Cursor where
  index : Nat
  rest : Word

/-- The next number, and the place after it. Words without bits are skipped. -/
def next? (s : WordSet) (c : Cursor) : Option (Nat × Cursor) :=
  if c.rest ≠ 0 then
    some (c.index * 64 + c.rest.ctz.toNat, ⟨c.index, c.rest.dropLowest⟩)
  else if _ : c.index + 1 < s.words.length then s.next? ⟨c.index + 1, s.words[c.index + 1]⟩
  else none
termination_by s.words.length - c.index

/-- Each step goes up in a word or on to a later one. -/
theorem lt_of_next? {s : WordSet} {c d : Cursor} {i : Nat} (h : s.next? c = some (i, d)) :
    Prod.Lex (· < ·) (· < ·) (s.words.length - d.index, d.rest.toNat)
      (s.words.length - c.index, c.rest.toNat) := by
  induction c using next?.induct s with
  | case1 c some =>
    rw [next?, if_pos some] at h
    obtain ⟨-, rfl⟩ := Prod.mk.inj (Option.some.inj h)
    exact Prod.Lex.right _ (Word.toNat_dropLowest_lt some)
  | case2 c none inside ih =>
    rw [next?, if_neg none, dif_pos inside] at h
    have later := Prod.lex_def.1 (ih h)
    refine Prod.Lex.left _ _ ?_
    simp only at later
    omega
  | case3 c none outside =>
    rw [next?, if_neg none, dif_neg outside] at h
    cases h

/-- The numbers from a place on. -/
def drain (s : WordSet) (c : Cursor) : List Nat :=
  match _ : s.next? c with
  | none => []
  | some (i, d) => i :: s.drain d
termination_by (s.words.length - c.index, c.rest.toNat)
decreasing_by exact lt_of_next? ‹_›

theorem drain_of_none {s : WordSet} {c : Cursor} (h : s.next? c = none) : s.drain c = [] := by
  rw [drain]
  split
  next => rfl
  next _ _ step =>
    rw [h] at step
    cases step

theorem drain_of_some {s : WordSet} {c d : Cursor} {i : Nat} (h : s.next? c = some (i, d)) :
    s.drain c = i :: s.drain d := by
  rw [drain]
  split
  next last =>
    rw [h] at last
    cases last
  next _ _ step =>
    rw [h] at step
    cases step
    rfl

/-- The elements, ascending. -/
def toList (s : WordSet) : List Nat := s.drain ⟨0, s.word 0⟩

/-- The greatest set below both. -/
def meet : Confluence → WordSet → WordSet → Except Fault WordSet
  | .union => combined .union
  | .intersection => combined .inter

/-- The least set above both. -/
def join : Confluence → WordSet → WordSet → Except Fault WordSet
  | .union => combined .inter
  | .intersection => combined .union

/-- Whether `s` is below `t`, that is, their meet. -/
def le (c : Confluence) (s t : WordSet) : Except Fault Bool := (· == s) <$> meet c s t

def topOf : Confluence → WordSet → WordSet
  | .union, s => empty s.size
  | .intersection, s => full s.size

def bottomOf : Confluence → WordSet → WordSet
  | .union, s => full s.size
  | .intersection, s => empty s.size

def isTop : Confluence → WordSet → Bool
  | .union, s => s.isEmpty
  | .intersection, s => s.isFull

def isBottom : Confluence → WordSet → Bool
  | .union, s => s.isFull
  | .intersection, s => s.isEmpty

end WordSet
end FlowAnalysis
