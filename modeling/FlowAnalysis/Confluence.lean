import FlowAnalysis.BitSet

/-!
The two ways in which what is known along several paths meets: as what holds along some path
(union) or along every path (intersection). Each orders the sets of a universe as a lattice; its
top says the least, so it is what no path says anything about.
-/
namespace FlowAnalysis

inductive Confluence
  | union | intersection
  deriving DecidableEq

namespace Confluence

def meetBits {n : Nat} : Confluence → BitVec n → BitVec n → BitVec n
  | union, x, y => x ||| y
  | intersection, x, y => x &&& y

/-- The neutral element of the meet. -/
def top (n : Nat) : Confluence → BitVec n
  | union => 0#n
  | intersection => BitVec.allOnes n

/-- The absorbing element of the meet. -/
def bottom (n : Nat) : Confluence → BitVec n
  | union => BitVec.allOnes n
  | intersection => 0#n

/-- The greatest set below both. -/
def meet : Confluence → BitSet → BitSet → Except Fault BitSet
  | union, s, t => (·.1) <$> s.union t
  | intersection, s, t => (·.1) <$> s.inter t

/-- The least set above both. -/
def join : Confluence → BitSet → BitSet → Except Fault BitSet
  | union, s, t => (·.1) <$> s.inter t
  | intersection, s, t => (·.1) <$> s.union t

/-- Whether `s` is below `t`, that is, their meet. -/
def le (c : Confluence) (s t : BitSet) : Except Fault Bool := (· == s) <$> c.meet s t

/-- The top of the universe of `s`. -/
def topOf (c : Confluence) (s : BitSet) : BitSet := .ofBits (c.top s.size)

/-- The bottom of the universe of `s`. -/
def bottomOf (c : Confluence) (s : BitSet) : BitSet := .ofBits (c.bottom s.size)

def isTop : Confluence → BitSet → Bool
  | union, s => s.isEmpty
  | intersection, s => s.isFull

def isBottom : Confluence → BitSet → Bool
  | union, s => s.isFull
  | intersection, s => s.isEmpty

@[simp] theorem top_meetBits {n : Nat} (c : Confluence) (x : BitVec n) :
    c.meetBits (c.top n) x = x := by
  cases c <;> simp [meetBits, top]

@[simp] theorem meetBits_bottom {n : Nat} (c : Confluence) (x : BitVec n) :
    c.meetBits x (c.bottom n) = c.bottom n := by
  cases c <;> simp [meetBits, bottom]

@[simp] theorem meet_ofBits {n : Nat} (c : Confluence) (x y : BitVec n) :
    c.meet (.ofBits x) (.ofBits y) = .ok (.ofBits (c.meetBits x y)) := by
  cases c with
  | union =>
    rw [meet, BitSet.union_ofBits]
    rfl
  | intersection =>
    rw [meet, BitSet.inter_ofBits]
    rfl

end Confluence
end FlowAnalysis
