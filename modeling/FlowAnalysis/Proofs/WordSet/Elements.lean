import FlowAnalysis.Proofs.WordSet.Packed
import FlowAnalysis.Proofs.BitSet.Elements
import Mathlib.Data.List.Sort

/-!
What words tell of the set that they hold. Main statements: stepping through the words, from lowest
bit to lowest bit, lists the elements in ascending order; the words have as many bits as the set has
elements; and the words tell whether it is empty, full or part of another.
-/
namespace FlowAnalysis

namespace Word

variable {x : Word} {i n : Nat}

/-- What is left without the lowest bit is what is above it. -/
theorem getLsbD_dropLowest_iff_ctz_lt :
    x.dropLowest.getLsbD i = true ↔ x.getLsbD i = true ∧ x.ctz.toNat < i := by
  rw [getLsbD_dropLowest]
  refine and_congr_right fun bit => ⟨fun ⟨j, lt, below⟩ => ?_, fun lt => ?_⟩
  · refine Nat.lt_of_not_le fun le => ?_
    have clear : x.getLsbD j = false := BitVec.getLsbD_false_of_lt_ctz (Nat.lt_of_lt_of_le lt le)
    rw [clear] at below
    cases below
  · have some : x ≠ 0 := by
      rintro rfl
      simp at bit
    exact ⟨_, lt, BitVec.getLsbD_true_ctz_of_ne_zero some⟩

theorem ctz_le (bit : x.getLsbD i = true) : x.ctz.toNat ≤ i := by
  refine Nat.le_of_not_lt fun lt => ?_
  rw [BitVec.getLsbD_false_of_lt_ctz lt] at bit
  cases bit

theorem cpopNatRec_eq_countP : x.cpopNatRec n 0 = (List.range n).countP x.getLsbD := by
  induction n with
  | zero => rfl
  | succ n ih =>
    rw [BitVec.cpopNatRec_succ, BitVec.cpopNatRec_eq, ih, List.range_succ, List.countP_append]
    cases bit : x.getLsbD n <;> simp [bit]

theorem toNat_cpop_eq_countP : x.cpop.toNat = (List.range 64).countP x.getLsbD := by
  rw [BitVec.toNat_cpop, cpopNatRec_eq_countP]

end Word

namespace WordSet

variable {s t : BitSet} {w : WordSet} {c d : Cursor} {n i j k : Nat}

/-- Number `i` is still to come: its bit is in the rest of the word or in a later word. -/
def Ahead (w : WordSet) (c : Cursor) (i : Nat) : Prop :=
  i / 64 = c.index ∧ c.rest.getLsbD (i % 64) = true ∨ c.index < i / 64 ∧ w.bit i = true

/-- Without a rest the next word is what is to come. -/
theorem ahead_of_rest_eq_zero (none : c.rest = 0) :
    w.Ahead c i ↔ w.Ahead ⟨c.index + 1, w.word (c.index + 1)⟩ i := by
  simp only [Ahead, none, BitVec.ofNat_eq_ofNat, BitVec.getLsbD_zero, Bool.false_eq_true,
    and_false, false_or]
  constructor
  · intro ⟨later, bit⟩
    rcases Nat.eq_or_lt_of_le (Nat.succ_le_of_lt later) with next | lt
    · exact Or.inl ⟨next.symm, by rwa [show c.index + 1 = i / 64 from next]⟩
    · exact Or.inr ⟨lt, bit⟩
  · rintro (⟨next, bit⟩ | ⟨lt, bit⟩)
    · exact ⟨by omega, by rwa [WordSet.bit, next]⟩
    · exact ⟨by omega, bit⟩

theorem ctz_rest_lt (some : c.rest ≠ 0) : c.rest.ctz.toNat < 64 :=
  BitVec.lt_of_getLsbD (BitVec.getLsbD_true_ctz_of_ne_zero some)

theorem ahead_iff_of_rest (some : c.rest ≠ 0) : w.Ahead c j ↔
    j = c.index * 64 + c.rest.ctz.toNat ∨ w.Ahead ⟨c.index, c.rest.dropLowest⟩ j := by
  have set : c.rest.getLsbD c.rest.ctz.toNat = true := BitVec.getLsbD_true_ctz_of_ne_zero some
  have lt := ctz_rest_lt some
  simp only [Ahead, Word.getLsbD_dropLowest_iff_ctz_lt]
  constructor
  · rintro (⟨here, bit⟩ | later)
    · rcases Nat.eq_or_lt_of_le (Word.ctz_le bit) with least | above
      · exact Or.inl (by omega)
      · exact Or.inr (Or.inl ⟨here, bit, above⟩)
    · exact Or.inr (Or.inr later)
  · rintro (rfl | ⟨here, bit, -⟩ | later)
    · have place : (c.index * 64 + c.rest.ctz.toNat) / 64 = c.index ∧
          (c.index * 64 + c.rest.ctz.toNat) % 64 = c.rest.ctz.toNat := by omega
      exact Or.inl ⟨place.1, by rwa [place.2]⟩
    · exact Or.inl ⟨here, bit⟩
    · exact Or.inr later

theorem lt_of_ahead (some : c.rest ≠ 0) (h : w.Ahead ⟨c.index, c.rest.dropLowest⟩ j) :
    c.index * 64 + c.rest.ctz.toNat < j := by
  simp only [Ahead, Word.getLsbD_dropLowest_iff_ctz_lt] at h
  have lt := ctz_rest_lt some
  omega

/-- What comes next is the least that is to come, and what comes later is the others. -/
theorem ahead_of_next? (h : w.next? c = some (i, d)) :
    (∀ j, w.Ahead c j ↔ j = i ∨ w.Ahead d j) ∧ ∀ j, w.Ahead d j → i < j := by
  induction c using next?.induct w with
  | case1 c some =>
    rw [next?, if_pos some] at h
    obtain ⟨rfl, rfl⟩ := Prod.mk.inj (Option.some.inj h)
    exact ⟨fun j => ahead_iff_of_rest some, fun j => lt_of_ahead some⟩
  | case2 c none inside ih =>
    rw [next?, if_neg none, dif_pos inside] at h
    obtain ⟨later, above⟩ := ih h
    have word : w.word (c.index + 1) = w.words[c.index + 1] := by simp [word, inside]
    refine ⟨fun j => ?_, above⟩
    rw [ahead_of_rest_eq_zero (Classical.not_not.1 none), word]
    exact later j
  | case3 c none outside =>
    rw [next?, if_neg none, dif_neg outside] at h
    cases h

theorem not_ahead_of_next? (h : w.next? c = none) : ¬ w.Ahead c i := by
  induction c using next?.induct w with
  | case1 c some =>
    rw [next?, if_pos some] at h
    cases h
  | case2 c none inside ih =>
    rw [next?, if_neg none, dif_pos inside] at h
    have word : w.word (c.index + 1) = w.words[c.index + 1] := by simp [word, inside]
    rw [ahead_of_rest_eq_zero (Classical.not_not.1 none), word]
    exact ih h
  | case3 c none outside =>
    rw [Ahead, Classical.not_not.1 none]
    rintro (⟨-, bit⟩ | ⟨later, bit⟩)
    · simp at bit
    · have beyond : w.words.length ≤ i / 64 := by omega
      simp [WordSet.bit, word, List.getElem?_eq_none beyond] at bit

theorem mem_drain : i ∈ w.drain c ↔ w.Ahead c i := by
  induction c using drain.induct w with
  | case1 c last =>
    rw [drain_of_none last]
    exact iff_of_false List.not_mem_nil (not_ahead_of_next? last)
  | case2 c j d step ih => rw [drain_of_some step, List.mem_cons, ih, (ahead_of_next? step).1]

theorem pairwise_drain : (w.drain c).Pairwise (· < ·) := by
  induction c using drain.induct w with
  | case1 c last =>
    rw [drain_of_none last]
    exact List.Pairwise.nil
  | case2 c j d step ih =>
    rw [drain_of_some step]
    exact List.Pairwise.cons (fun i hi => (ahead_of_next? step).2 i (mem_drain.1 hi)) ih

theorem mem_toList : i ∈ w.toList ↔ w.bit i = true := by
  rw [toList, mem_drain, Ahead]
  constructor
  · rintro (⟨first, bit⟩ | ⟨-, bit⟩)
    · rwa [WordSet.bit, first]
    · exact bit
  · intro bit
    rcases Nat.eq_zero_or_pos (i / 64) with first | later
    · exact Or.inl ⟨first, by rwa [WordSet.bit, first] at bit⟩
    · exact Or.inr ⟨later, bit⟩

theorem toList_packed (s : BitSet) : (packed s).toList = s.toList := by
  refine List.Pairwise.eq_of_mem_iff pairwise_drain s.pairwise_toList fun i => ?_
  rw [mem_toList, bit_packed, BitSet.mem_toList, BitSet.mem_def]

/-- Word by word, all bits are counted. -/
theorem foldl_cpop (s : BitSet) (m : Nat) :
    (List.range m).foldl (fun n k => n + (s.bits.extractLsb' (64 * k) 64).cpop.toNat) 0 =
      (List.range (64 * m)).countP s.bits.getLsbD := by
  induction m with
  | zero => rfl
  | succ m ih =>
    have word : (s.bits.extractLsb' (64 * m) 64).cpop.toNat =
        (List.range 64).countP (s.bits.getLsbD ∘ (64 * m + ·)) := by
      rw [Word.toNat_cpop_eq_countP]
      refine List.countP_congr fun j hj => ?_
      rw [BitVec.getLsbD_extractLsb', decide_eq_true (List.mem_range.1 hj), Bool.true_and]
      rfl
    rw [List.range_succ, List.foldl_append, ih, List.foldl_cons, List.foldl_nil, word,
      Nat.mul_succ, List.range_add, List.countP_append, List.countP_map]

theorem count_packed (s : BitSet) : (packed s).count = s.count := by
  obtain ⟨tail, all⟩ : ∃ tail, 64 * wordCount s.size = s.size + tail := by
    refine ⟨64 * wordCount s.size - s.size, ?_⟩
    unfold wordCount
    omega
  have clear : (List.range tail).countP (s.bits.getLsbD ∘ (s.size + ·)) = 0 := by simp
  calc (packed s).count
      = (List.range (s.size + tail)).countP s.bits.getLsbD := by
        rw [← all, ← foldl_cpop, count, packed, List.foldl_map]
    _ = (List.range s.size).countP s.bits.getLsbD := by
        rw [List.range_add, List.countP_append, List.countP_map, clear, Nat.add_zero]
    _ = s.count := by
        rw [BitSet.count, BitSet.toList, ← List.countP_eq_length_filter]
        exact List.countP_congr fun i _ => by rw [decide_eq_true_iff, BitSet.mem_def]

theorem isFull_packed (s : BitSet) : (packed s).isFull = s.isFull := by
  rw [isFull, count_packed, BitSet.isFull, size_packed]

theorem isEmpty_packed (s : BitSet) : (packed s).isEmpty = s.isEmpty := by
  have zero : (packed s).isEmpty = true ↔ packed s = empty s.size := by
    rw [isEmpty, List.all_eq_true]
    constructor
    · intro all
      have words : (packed s).words = List.replicate (wordCount s.size) 0 :=
        List.eq_replicate_iff.2 ⟨length_packed, fun x hx => by simpa using all x hx⟩
      rw [empty, ← words]
      rfl
    · intro same x hx
      rw [same] at hx
      rw [List.eq_of_mem_replicate hx, beq_self_eq_true]
  rw [Bool.eq_iff_iff, zero, empty_eq, packed_injective.eq_iff, BitSet.isEmpty_iff]

theorem subset_packed (s t : BitSet) : (packed s).subset (packed t) = s.subset t := by
  by_cases size : t.size = s.size
  · obtain ⟨n, x⟩ := s
    obtain ⟨m, y⟩ := t
    cases size
    have diff : ∀ k, x.extractLsb' (64 * k) 64 &&& ~~~y.extractLsb' (64 * k) 64 =
        (x &&& ~~~y).extractLsb' (64 * k) 64 := fun _ =>
      Combination.bits_extractLsb' .diff
    have words : ((packed (.ofBits x)).words.zip (packed (.ofBits y)).words).all
        (fun p => p.1 &&& ~~~p.2 == 0) = (packed (.ofBits (x &&& ~~~y))).isEmpty := by
      simp only [isEmpty, packed, List.zip_map', List.all_map, Function.comp_def, diff]
    have together : (packed (.ofBits x)).size = (packed (.ofBits y)).size := rfl
    rw [subset, if_pos together, words, isEmpty_packed, BitSet.subset_ofBits]
  · have apart : (packed s).size ≠ (packed t).size := Ne.symm size
    rw [subset, if_neg apart, BitSet.subset_of_ne size]

end WordSet
end FlowAnalysis
