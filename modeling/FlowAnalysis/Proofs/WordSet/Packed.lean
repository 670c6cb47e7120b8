import FlowAnalysis.WordSet

/-!
Sets of bits in words. Main statements: words hold a set of bits just if there are as many as its
universe takes and none has a bit beyond it; and every operation on words does to the set that they
hold what it does to bits, with the same answer.
-/
namespace FlowAnalysis

namespace Combination

variable {n : Nat}

/-- What becomes of one bit. -/
def bit : Combination → Bool → Bool → Bool
  | union, a, b => a || b
  | inter, a, b => a && b
  | diff, a, b => a && !b

theorem getLsbD_bits {op : Combination} {x y : BitVec n} {i : Nat} :
    (op.bits x y).getLsbD i = op.bit (x.getLsbD i) (y.getLsbD i) := by
  cases op with
  | union => exact BitVec.getLsbD_or
  | inter => exact BitVec.getLsbD_and
  | diff =>
    by_cases lt : i < n
    · simp [bits, bit, lt]
    · simp [bits, bit, BitVec.getLsbD_of_ge x i (Nat.le_of_not_lt lt)]

theorem bits_extractLsb' (op : Combination) {x y : BitVec n} {start len : Nat} :
    op.bits (x.extractLsb' start len) (y.extractLsb' start len) =
      (op.bits x y).extractLsb' start len := by
  apply BitVec.eq_of_getLsbD_eq
  intro i lt
  simp only [getLsbD_bits, BitVec.getLsbD_extractLsb', lt, decide_true, Bool.true_and]

end Combination

namespace BitSet

/-- The set changed by another of its universe, and whether it changes. -/
def combineBy (op : Combination) (s t : BitSet) : Except Fault (BitSet × Bool) :=
  match op with
  | .union => s.union t
  | .inter => s.inter t
  | .diff => s.diff t

theorem combineBy_ofBits {n : Nat} (op : Combination) (x y : BitVec n) :
    combineBy op (.ofBits x) (.ofBits y) =
      .ok (.ofBits (op.bits x y), BitSet.ofBits (op.bits x y) != .ofBits x) := by
  cases op with
  | union => exact union_ofBits x y
  | inter => exact inter_ofBits x y
  | diff => exact diff_ofBits x y

theorem combineBy_of_ne {s t : BitSet} (op : Combination) (h : t.size ≠ s.size) :
    combineBy op s t = .error .universeMismatch := by
  cases op with
  | union => rw [combineBy, union, combine_of_ne h]
  | inter => rw [combineBy, inter, combine_of_ne h]
  | diff => rw [combineBy, diff, combine_of_ne h]

/-- What becomes of a set that is changed in place: after a fault it is as before. -/
def inPlace (s : BitSet) : Except Fault (BitSet × Bool) → Except Fault Bool × BitSet
  | .ok (t, answer) => (.ok answer, t)
  | .error f => (.error f, s)

end BitSet

namespace WordSet

variable {s t : BitSet} {w : WordSet} {n i j k : Nat}

/-- The bit of number `i`, also beyond the universe. -/
def bit (w : WordSet) (i : Nat) : Bool := (w.word (i / 64)).getLsbD (i % 64)

/-- The bits of `s` in words. -/
def packed (s : BitSet) : WordSet where
  words := (List.range (wordCount s.size)).map fun k => s.bits.extractLsb' (64 * k) 64
  size := s.size

/-- There are as many words as the universe takes, and no bit beyond it is set. -/
structure WellFormed (w : WordSet) : Prop where
  length : w.words.length = wordCount w.size
  clear : ∀ i, w.size ≤ i → w.bit i = false

theorem bit_mul_add (lt : j < 64) : w.bit (64 * k + j) = (w.word k).getLsbD j := by
  have place : (64 * k + j) / 64 = k ∧ (64 * k + j) % 64 = j := by omega
  rw [bit, place.1, place.2]

/-- The word of a number of the universe is there. -/
theorem div_lt_wordCount (lt : i < n) : i / 64 < wordCount n := by
  unfold wordCount
  omega

@[simp] theorem size_packed : (packed s).size = s.size := rfl

@[simp] theorem length_packed : (packed s).words.length = wordCount s.size := by
  simp [packed]

theorem getElem?_packed : (packed s).words[k]? =
    if k < wordCount s.size then some (s.bits.extractLsb' (64 * k) 64) else none := by
  split
  next lt => simp [packed, lt]
  next out => simpa [packed] using out

theorem word_packed : (packed s).word k = s.bits.extractLsb' (64 * k) 64 := by
  rw [word, List.getD_eq_getElem?_getD, getElem?_packed]
  split
  next => rfl
  next out =>
    -- beyond the last word there are no bits
    apply BitVec.eq_of_getLsbD_eq
    intro j lt
    rw [BitVec.getLsbD_extractLsb', BitVec.getLsbD_of_ge s.bits]
    · simp
    · unfold wordCount at out
      omega

@[simp] theorem bit_packed : (packed s).bit i = s.bits.getLsbD i := by
  rw [bit, word_packed, BitVec.getLsbD_extractLsb', decide_eq_true (Nat.mod_lt i (by decide)),
    Bool.true_and, Nat.div_add_mod]

/-- Words hold `s` if they have its bits in their places. -/
theorem eq_packed (size : w.size = s.size) (length : w.words.length = wordCount s.size)
    (bits : ∀ i, i / 64 < wordCount s.size → w.bit i = s.bits.getLsbD i) : w = packed s := by
  obtain ⟨words, m⟩ := w
  obtain rfl : m = s.size := size
  have same : words = (packed s).words := by
    apply List.ext_getElem?
    intro k
    rw [getElem?_packed]
    split
    next lt =>
      have here : words[k]? = some (words.getD k 0) := by simp [length ▸ lt]
      rw [here, Option.some.injEq]
      apply BitVec.eq_of_getLsbD_eq
      intro j hj
      rw [BitVec.getLsbD_extractLsb', decide_eq_true hj, Bool.true_and, ← bits _ (by omega),
        bit_mul_add hj]
      rfl
    next out => exact List.getElem?_eq_none (length ▸ Nat.le_of_not_lt out)
  rw [same]
  rfl

theorem wellFormed_packed (s : BitSet) : (packed s).WellFormed where
  length := length_packed
  clear := by
    intro i beyond
    rw [bit_packed]
    exact BitVec.getLsbD_of_ge s.bits i beyond

/-- Different sets are in different words. -/
theorem packed_injective : Function.Injective packed := by
  intro s t same
  refine BitSet.ext_mem (congrArg WordSet.size same) fun i => ?_
  have told : (packed s).bit i = (packed t).bit i := congrArg (fun w => w.bit i) same
  rw [bit_packed, bit_packed] at told
  rw [BitSet.mem_def, BitSet.mem_def, told]

/-- Words without bits beyond their universe hold a set of bits. -/
theorem wellFormed_iff : w.WellFormed ↔ ∃ s, w = packed s := by
  constructor
  · intro h
    let x : BitVec w.size :=
      (BitVec.ofBoolListLE ((List.range w.size).map w.bit)).cast (by simp)
    refine ⟨.ofBits x, eq_packed rfl h.length fun i _ => ?_⟩
    simp only [x, BitVec.getLsbD_cast, BitVec.getLsbD_ofBoolListLE]
    by_cases inside : i < w.size
    · simp [inside]
    · simp [inside, h.clear i (Nat.le_of_not_lt inside)]
  · rintro ⟨s, rfl⟩
    exact wellFormed_packed s

/-! Bits one by one -/

theorem mask_eq (i : Nat) : mask i = BitVec.twoPow 64 (i % 64) :=
  (BitVec.twoPow_eq 64 (i % 64)).symm

theorem getLsbD_mask : (mask i).getLsbD j = decide (i % 64 = j) := by
  rw [mask_eq, BitVec.getLsbD_twoPow, decide_eq_true (Nat.mod_lt i (by decide)), Bool.true_and]

theorem mask_ne_zero : mask i ≠ 0#64 := by
  intro zero
  have bit : (mask i).getLsbD (i % 64) = true := by rw [getLsbD_mask, decide_eq_true rfl]
  rw [zero] at bit
  simp at bit

theorem word_and_mask : (w.word (i / 64) &&& mask i == 0) = !w.bit i := by
  rw [bit, mask_eq, BitVec.and_twoPow, ← mask_eq]
  cases (w.word (i / 64)).getLsbD (i % 64) with
  | true => simp [mask_ne_zero]
  | false => simp

@[simp] theorem contains_packed : (packed s).contains i = decide (i ∈ s) := by
  rw [contains, bne, word_and_mask, bit_packed, Bool.not_not, Bool.eq_iff_iff, Bool.and_eq_true,
    decide_eq_true_iff, decide_eq_true_iff]
  exact and_iff_right_of_imp BitSet.lt_size_of_mem

theorem bit_set (there : i / 64 < w.words.length) :
    bit ⟨w.words.set (i / 64) (w.word (i / 64) ||| mask i), n⟩ j = (w.bit j || decide (j = i)) := by
  by_cases same : i / 64 = j / 64
  · have place : i % 64 = j % 64 ↔ j = i := by omega
    simp [bit, word, ← same, there, getLsbD_mask, place]
  · have apart : j ≠ i := by
      rintro rfl
      exact same rfl
    simp [bit, word, same, apart]

theorem insert_packed (s : BitSet) (i : Nat) :
    insert i (packed s) = Prod.map id packed (s.inPlace (s.insert i)) := by
  rcases Nat.lt_or_ge i s.size with lt | le
  · have answer : ((packed s).word (i / 64) &&& mask i == 0) = s.lacks i := by
      rw [word_and_mask, bit_packed, BitSet.lacks, decide_eq_true lt, Bool.true_and]
      simp [BitSet.mem_def]
    have there : i / 64 < (packed s).words.length := length_packed ▸ div_lt_wordCount lt
    have words : (⟨(packed s).words.set (i / 64) ((packed s).word (i / 64) ||| mask i), s.size⟩ :
        WordSet) = packed (s.add i) := by
      refine eq_packed (by simp) (by simp) fun j _ => ?_
      rw [bit_set there, bit_packed, Bool.eq_iff_iff, ← BitSet.mem_def, BitSet.mem_add,
        BitSet.mem_def]
      simp [lt]
    rw [BitSet.insert_of_lt lt, insert_of_lt lt, BitSet.inPlace, Prod.map, ← answer, ← words]
    rfl
  · rw [BitSet.insert_of_le le, insert_of_le le]
    rfl

/-- Numbers put in one by one, into words as into bits. -/
theorem insertAll_packed (xs : List Nat) (s : BitSet) :
    match xs.foldlM (fun s i => (·.1) <$> s.insert i) s with
    | .ok t => insertAll xs (packed s) = (.ok (), packed t)
    | .error e => ∃ w, insertAll xs (packed s) = (.error e, w) := by
  induction xs generalizing s with
  | nil => rfl
  | cons i xs ih =>
    rw [insertAll, List.foldlM_cons]
    have here := insert_packed s i
    cases bits : s.insert i with
    | ok r =>
      rw [bits] at here
      have first : (discard (insert i) : InPlace Unit) (packed s) = (.ok (), packed r.1) :=
        InPlace.bind_of_ok here
      rw [InPlace.bind_of_ok first]
      exact ih r.1
    | error e =>
      rw [bits] at here
      have first : (discard (insert i) : InPlace Unit) (packed s) = (.error e, packed s) :=
        InPlace.bind_of_error here
      rw [InPlace.bind_of_error first]
      exact ⟨packed s, rfl⟩

/-! Bits word by word -/

theorem empty_eq (n : Nat) : empty n = packed (.empty n) := by
  refine eq_packed rfl (by simp [empty]) fun i _ => ?_
  have zero : (empty n).word (i / 64) = 0#64 := by
    rw [word, empty, List.getD_eq_getElem?_getD, List.getElem?_replicate]
    split <;> rfl
  rw [bit, zero]
  simp [BitSet.empty]

theorem ofList_eq (n : Nat) (xs : List Nat) : ofList n xs = packed <$> BitSet.ofList n xs := by
  have run := insertAll_packed xs (.empty n)
  rw [ofList, BitSet.ofList, empty_eq]
  split at run
  next t bits =>
    rw [run, bits]
    rfl
  next e bits =>
    obtain ⟨w, run⟩ := run
    rw [run, bits]
    rfl

/-- The lowest `n` bits of a word. -/
theorem getLsbD_low (lt : n < 64) : (1#64 <<< n - 1).getLsbD j = decide (j < n) := by
  have pow : (1#64 <<< n).toNat = 2 ^ n := by
    rw [← BitVec.twoPow_eq, BitVec.toNat_twoPow_of_lt lt]
  have le : (1 : Word) ≤ 1#64 <<< n := by
    rw [BitVec.le_def, pow]
    exact Nat.one_le_two_pow
  rw [BitVec.getLsbD, BitVec.toNat_sub_of_le le, pow]
  exact Nat.testBit_two_pow_sub_one n j

theorem length_fill : w.fill.words.length = w.words.length := by
  simp only [fill]
  split <;> simp

theorem bit_fill (length : w.words.length = wordCount w.size) (here : i / 64 < wordCount w.size) :
    w.fill.bit i = decide (i < w.size) := by
  have there : i / 64 < w.words.length := length ▸ here
  have ones : (w.words.map fun _ => BitVec.allOnes 64)[i / 64]? = some (BitVec.allOnes 64) := by
    rw [List.getElem?_map, List.getElem?_eq_getElem there, Option.map_some]
  have lt : i % 64 < 64 := Nat.mod_lt i (by decide)
  unfold wordCount at here length
  simp only [bit, word, fill, List.getD_eq_getElem?_getD, List.length_map]
  split
  next whole =>
    have inside : i < w.size := by omega
    rw [ones, Option.getD_some, BitVec.getLsbD_allOnes, decide_eq_true lt, decide_eq_true inside]
  next part =>
    rw [List.getElem?_modify, ones, Option.map_eq_map, Option.map_some, Option.getD_some]
    split
    next last =>
      rw [getLsbD_low (Nat.mod_lt w.size (by decide)), Bool.eq_iff_iff, decide_eq_true_iff,
        decide_eq_true_iff]
      omega
    next before =>
      have inside : i < w.size := by omega
      rw [BitVec.getLsbD_allOnes, decide_eq_true lt, decide_eq_true inside]

theorem fill_packed (s : BitSet) : (packed s).fill = packed (.full s.size) := by
  refine eq_packed rfl (length_fill.trans length_packed) fun i here => ?_
  rw [bit_fill length_packed here, Bool.eq_iff_iff, decide_eq_true_iff]
  exact BitSet.mem_full.symm

theorem full_eq (n : Nat) : full n = packed (.full n) := by
  rw [full, empty_eq, fill_packed, BitSet.size_empty]

/-- One number over a whole word, a second word has a single bit. -/
example : (full 65).words = [BitVec.allOnes 64, 1#64] := by decide

theorem combineWords_eq {op : Combination} {xs ys : List Word} (length : xs.length = ys.length) :
    combineWords op xs ys = (xs.zipWith op.bits ys, xs != xs.zipWith op.bits ys) := by
  induction xs generalizing ys with
  | nil => cases ys with
    | nil => rfl
    | cons y ys => cases length
  | cons x xs ih => cases ys with
    | nil => cases length
    | cons y ys =>
      rw [combineWords, ih (Nat.succ.inj length)]
      simp [bne]

theorem words_packed_inj {x y : BitVec n} :
    (packed (.ofBits x)).words = (packed (.ofBits y)).words ↔ x = y := by
  constructor
  · intro words
    have same : packed (.ofBits x) = packed (.ofBits y) := by
      rw [packed, packed, WordSet.mk.injEq]
      exact ⟨words, rfl⟩
    simpa using packed_injective same
  · rintro rfl
    rfl

theorem combine_packed (op : Combination) (s t : BitSet) : combine op (packed t) (packed s) =
    Prod.map id packed (s.inPlace (BitSet.combineBy op s t)) := by
  by_cases size : t.size = s.size
  · obtain ⟨n, x⟩ := s
    obtain ⟨m, y⟩ := t
    cases size
    have words : (packed (.ofBits x)).words.zipWith op.bits (packed (.ofBits y)).words =
        (packed (.ofBits (op.bits x y))).words := by
      simp only [packed, List.zipWith_map, List.zipWith_self, Combination.bits_extractLsb']
    have flag : ((packed (.ofBits x)).words != (packed (.ofBits (op.bits x y))).words) =
        (BitSet.ofBits (op.bits x y) != .ofBits x) := by
      rw [Bool.eq_iff_iff, bne_iff_ne, bne_iff_ne, Ne, Ne, words_packed_inj]
      simp [eq_comm]
    have together : (packed (.ofBits x)).size = (packed (.ofBits y)).size := rfl
    rw [combine_of_eq together, combineWords_eq (by simp), words, flag,
      BitSet.combineBy_ofBits]
    rfl
  · rw [combine_of_ne (Ne.symm size), BitSet.combineBy_of_ne op size]
    rfl

end WordSet
end FlowAnalysis
