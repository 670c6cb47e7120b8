import Mathlib.Data.List.Basic

/-!
Numbers in digits. Main statements: digits read as the number that they write and, with a minus
before them, as its negative; so every number reads back from its text.
-/
namespace FlowAnalysis.Text

theorem ne_underscore_of_isDigit {c : Char} (h : c.isDigit = true) : c ≠ '_' := by
  rintro rfl
  cases h

section Digits

variable {s : String.Slice} (nonempty : s.copy.toList ≠ [])
  (digits : ∀ c ∈ s.copy.toList, c.isDigit = true)
include nonempty digits

theorem isNat_of_digits : s.isNat = true := by
  rw [String.Slice.isNat]
  simp only [String.Slice.forIn_eq_forIn_toList]
  obtain ⟨c, cs, whole⟩ := List.exists_cons_of_ne_nil nonempty
  rw [whole] at digits ⊢
  clear whole nonempty
  -- what comes after a digit is read alike, whichever digit it is
  induction cs generalizing c with
  | nil =>
    have digit := digits c List.mem_cons_self
    simp [digit, ne_underscore_of_isDigit digit]
  | cons d cs ih =>
    obtain ⟨first, digits⟩ := List.forall_mem_cons.1 digits
    have second := digits d List.mem_cons_self
    simpa [first, second, ne_underscore_of_isDigit first, ne_underscore_of_isDigit second] using
      ih d digits

theorem toNat?_of_digits : s.toNat? = some (Nat.ofDigitChars 10 s.copy.toList 0) := by
  rw [String.Slice.toNat?, if_pos (isNat_of_digits nonempty digits),
    String.Slice.foldl_eq_foldl_toList, Nat.ofDigitChars_eq_foldl]
  refine congrArg some (List.foldl_ext _ _ _ fun n c mem => ?_)
  rw [if_neg (ne_underscore_of_isDigit (digits c mem)), Nat.mul_comm]

end Digits

section Signs

variable {s : String} (nonempty : s.toList ≠ []) (digits : ∀ c ∈ s.toList, c.isDigit = true)
include nonempty digits

theorem toInt?_of_digits : s.toInt? = some (Nat.ofDigitChars 10 s.toList 0 : Int) := by
  have copy : s.toSlice.copy = s := String.copy_toSlice
  have unsigned : s.toSlice.startsWith '-' = false := by
    rw [String.Slice.startsWith_char_eq_false_iff_forall_append, copy]
    rintro t rfl
    have sign := digits '-' (by simp)
    cases sign
  have read := toNat?_of_digits (s := s.toSlice)
  rw [copy] at read
  rw [String.toInt?, String.Slice.toInt?, String.Slice.dropPrefix?_eq_none_iff.2 unsigned]
  dsimp only
  rw [read nonempty digits]
  rfl

theorem toInt?_minus_of_digits :
    ("-" ++ s).toInt? = some (-(Nat.ofDigitChars 10 s.toList 0) : Int) := by
  have copy : ("-" ++ s).toSlice.copy = String.singleton '-' ++ s := String.copy_toSlice
  rw [String.toInt?, String.Slice.toInt?]
  cases found : ("-" ++ s).toSlice.dropPrefix? '-' with
  | none =>
    rw [String.Slice.dropPrefix?_eq_none_iff,
      String.Slice.startsWith_char_eq_false_iff_forall_append] at found
    exact absurd copy (found s)
  | some rest =>
    have parts := copy.symm.trans (String.Slice.eq_append_of_dropPrefix?_char_eq_some found)
    obtain rfl : s = rest.copy := by simpa using parts
    dsimp only
    rw [toNat?_of_digits nonempty digits, Option.map_some, Int.negOfNat_eq]
    rfl

end Signs

theorem isDigit_repr (m : Nat) : ∀ d ∈ m.repr.toList, d.isDigit = true := by
  intro d hd
  rw [Nat.toList_repr] at hd
  exact Nat.isDigit_of_mem_toDigits (by decide) (by decide) hd

theorem toList_repr_ne_nil (m : Nat) : m.repr.toList ≠ [] := by
  rw [Nat.toList_repr]
  exact Nat.toDigits_ne_nil

theorem exists_repr_eq_cons (m : Nat) :
    ∃ c cs, m.repr.toList = c :: cs ∧ c.isDigit = true := by
  obtain ⟨c, cs, whole⟩ := List.exists_cons_of_ne_nil (toList_repr_ne_nil m)
  exact ⟨c, cs, whole, isDigit_repr m c (whole ▸ List.mem_cons_self)⟩

theorem ofDigitChars_repr (m : Nat) : Nat.ofDigitChars 10 m.repr.toList 0 = m := by
  rw [Nat.toList_repr, Nat.ofDigitChars_toDigits (by decide) (by decide)]

/-- A number is written in digits, with a sign before them if it is negative. -/
theorem exists_toString_eq (n : Int) :
    ∃ m : Nat, toString n = m.repr ∧ n = m ∨ toString n = "-" ++ m.repr ∧ n = -m := by
  cases n with
  | ofNat m => exact ⟨m, Or.inl ⟨rfl, rfl⟩⟩
  | negSucc m => exact ⟨m + 1, Or.inr ⟨rfl, rfl⟩⟩

/-- A number reads back from its text. -/
theorem toInt?_toString (n : Int) : (toString n).toInt? = some n := by
  obtain ⟨m, ⟨text, value⟩ | ⟨text, value⟩⟩ := exists_toString_eq n
  · rw [text, value, toInt?_of_digits (toList_repr_ne_nil m) (isDigit_repr m), ofDigitChars_repr]
  · rw [text, value, toInt?_minus_of_digits (toList_repr_ne_nil m) (isDigit_repr m),
      ofDigitChars_repr]

end FlowAnalysis.Text
