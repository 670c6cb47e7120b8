import FlowAnalysis.BitSet

/-!
Sets of bits told by their elements. Main statements: the set of a list has its members, if its
universe has them all; a set is empty or full just if it is the one without elements or with all of
its universe; and one is a subset of another of its universe just if its elements are among those of
the other.
-/
namespace FlowAnalysis
namespace BitSet

variable {s t : BitSet} {n i : Nat}

theorem mem_foldl_add {s : BitSet} {xs : List Nat} {j : Nat} :
    j ∈ xs.foldl add s ↔ j ∈ s ∨ j ∈ xs ∧ j < s.size := by
  induction xs generalizing s with
  | nil => simp
  | cons x xs ih =>
    rw [List.foldl_cons, ih, mem_add, size_add, List.mem_cons]
    constructor
    · rintro ((h | ⟨rfl, h⟩) | ⟨h, lt⟩)
      · exact Or.inl h
      · exact Or.inr ⟨Or.inl rfl, h⟩
      · exact Or.inr ⟨Or.inr h, lt⟩
    · rintro (h | ⟨rfl | h, lt⟩)
      · exact Or.inl (Or.inl h)
      · exact Or.inl (Or.inr ⟨rfl, lt⟩)
      · exact Or.inr ⟨h, lt⟩

@[simp] theorem size_foldl_add (s : BitSet) (xs : List Nat) : (xs.foldl add s).size = s.size := by
  induction xs generalizing s with
  | nil => rfl
  | cons x xs ih => rw [List.foldl_cons, ih, size_add]

/-- Put in one by one, numbers fault at the first that is outside. -/
theorem foldlM_insert (xs : List Nat) (s : BitSet) :
    xs.foldlM (fun s i => (·.1) <$> s.insert i) s =
      match xs.find? (s.size ≤ ·) with
      | none => .ok (xs.foldl add s)
      | some i => .error (.outOfUniverse i s.size) := by
  induction xs generalizing s with
  | nil => rfl
  | cons i xs ih =>
    rw [List.foldlM_cons, List.find?_cons]
    rcases Nat.lt_or_ge i s.size with lt | le
    · rw [insert_of_lt lt, decide_eq_false (Nat.not_le.2 lt)]
      have rest := ih (s.add i)
      rw [size_add] at rest
      exact rest
    · rw [insert_of_le le, decide_eq_true le]
      rfl

theorem ofList_eq_ok {xs : List Nat} (below : ∀ i ∈ xs, i < n) :
    ofList n xs = .ok (xs.foldl add (empty n)) := by
  have none : xs.find? (n ≤ ·) = none := by simpa using below
  rw [ofList, foldlM_insert, size_empty, none]

theorem isEmpty_iff : s.isEmpty = true ↔ s = empty s.size := by
  obtain ⟨n, x⟩ := s
  simp [isEmpty, empty]

theorem isEmpty_iff_forall : s.isEmpty = true ↔ ∀ i, i ∉ s := by
  rw [isEmpty_iff]
  refine ⟨fun same i => same ▸ not_mem_empty, fun none => ext_mem rfl fun i => ?_⟩
  exact iff_of_false (none i) not_mem_empty

theorem isFull_iff_forall : s.isFull = true ↔ ∀ i < s.size, i ∈ s := by
  have all : s.count = s.size ↔ ∀ i < s.size, i ∈ s := by
    have length := List.length_filter_eq_length_iff (p := (· ∈ s)) (l := List.range s.size)
    simpa [count, toList] using length
  rw [isFull, beq_iff_eq, all]

theorem isFull_iff : s.isFull = true ↔ s = full s.size := by
  rw [isFull_iff_forall]
  constructor
  · intro all
    exact ext_mem rfl fun i => ⟨fun mem => mem_full.2 (lt_size_of_mem mem),
      fun mem => all i (mem_full.1 mem)⟩
  · intro same i lt
    rw [same]
    exact mem_full.2 lt

theorem subset_ofBits (x y : BitVec n) :
    (ofBits x).subset (ofBits y) = .ok (ofBits (x &&& ~~~y)).isEmpty := by
  rw [subset, within_ofBits]
  rfl

theorem subset_of_ne (h : t.size ≠ s.size) : s.subset t = .error .universeMismatch := by
  rw [subset, within_of_ne h]
  rfl

theorem subset_of_eq (h : t.size = s.size) : s.subset t = .ok (s.toList.all (· ∈ t)) := by
  obtain ⟨n, x⟩ := s
  obtain ⟨m, y⟩ := t
  cases h
  have each : ∀ i, i ∉ ofBits (x &&& ~~~y) ↔ (i ∈ ofBits x → i ∈ ofBits y) := by
    intro i
    simp only [mem_ofBits, BitVec.getLsbD_and, BitVec.getLsbD_not]
    by_cases lt : i < n
    · simp [lt]
    · simp [BitVec.getLsbD_of_ge x i (Nat.le_of_not_lt lt)]
  rw [subset_ofBits, Except.ok.injEq, Bool.eq_iff_iff, isEmpty_iff_forall, List.all_eq_true]
  simp only [mem_toList, decide_eq_true_iff, each]

end BitSet
end FlowAnalysis
