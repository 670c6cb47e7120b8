import FlowAnalysis.Confluence
import FlowAnalysis.Direction

/-!
Gen/kill problems: each node lets the facts through that it does not kill, and adds those that it
generates. What is known along several paths meets by union or by intersection.
-/
namespace FlowAnalysis

structure GenKill where
  direction : Direction
  confluence : Confluence
  /-- The number of facts. -/
  size : Nat
  /-- What holds where facts start to flow. -/
  boundary : BitVec size
  /-- What every node assumes before the first pass. -/
  initial : BitVec size
  gen : Array (BitVec size)
  kill : Array (BitVec size)

namespace GenKill

/-- What node `n` makes of the facts `x` before it. -/
def transfer (p : GenKill) (n : Nat) (x : BitVec p.size) : BitVec p.size :=
  (x &&& ~~~p.kill.getD n 0#_) ||| p.gen.getD n 0#_

/-- A fact holds after a node that generates it, and after one that lets it through. -/
theorem getLsbD_transfer (p : GenKill) (n i : Nat) (x : BitVec p.size) :
    (p.transfer n x).getLsbD i = true ↔
      (p.gen.getD n 0#_).getLsbD i = true ∨
        x.getLsbD i = true ∧ (p.kill.getD n 0#_).getLsbD i = false := by
  simp only [transfer, BitVec.getLsbD_or, BitVec.getLsbD_and, BitVec.getLsbD_not, Bool.or_eq_true,
    Bool.and_eq_true, decide_eq_true_eq, Bool.not_eq_true']
  constructor
  · rintro (⟨hx, _, hk⟩ | hg)
    · exact Or.inr ⟨hx, hk⟩
    · exact Or.inl hg
  · rintro (hg | ⟨hx, hk⟩)
    · exact Or.inr hg
    · exact Or.inl ⟨hx, BitVec.lt_of_getLsbD hx, hk⟩

/-- The meet of at least one set of facts. -/
def meetAll (p : GenKill) (x : BitVec p.size) (xs : List (BitVec p.size)) : BitVec p.size :=
  xs.foldl p.confluence.meetBits x

/-- What node `n` generates and kills. -/
def sets (p : GenKill) (n : Nat) : Except Fault (BitSet × BitSet) :=
  match p.gen[n]?, p.kill[n]? with
  | some g, some k => .ok (.ofBits g, .ofBits k)
  | _, _ => .error (.noNode n)

/-- The transfer of node `n` on a set of facts. -/
def apply (p : GenKill) (n : Nat) (s : BitSet) : Except Fault BitSet := do
  let _ ← p.sets n
  return .ofBits (p.transfer n (← s.within p.size))

end GenKill
end FlowAnalysis
