import Mathlib.Data.List.Induction

/-!
Walks along a relation, told by the nodes before their end. Main statements: walks compose and come
apart at every node, and they can be walked backwards.
-/
namespace FlowAnalysis

/-- Steps of `R` lead from `a` to `b`, and `ns` are the nodes before `b` in the order of the walk:
first `a`, unless no step is taken at all. -/
inductive Walk {α : Type} (R : α → α → Prop) (a : α) : List α → α → Prop
  | stay : Walk R a [] a
  | step {ns : List α} {b c : α} (walk : Walk R a ns b) (next : R b c) : Walk R a (ns ++ [b]) c

namespace Walk

variable {α : Type} {R S : α → α → Prop} {a b c m : α} {ms ns pre post : List α}

theorem single (next : R a b) : Walk R a [a] b := Walk.step Walk.stay next

theorem append (first : Walk R a ms b) (second : Walk R b ns c) : Walk R a (ms ++ ns) c := by
  induction second with
  | stay => simpa using first
  | step walk next ih =>
    rw [← List.append_assoc]
    exact ih.step next

theorem cons (next : R a b) (rest : Walk R b ns c) : Walk R a (a :: ns) c :=
  (single next).append rest

theorem nil_iff : Walk R a [] b ↔ b = a := by
  constructor
  · intro h
    generalize empty : ([] : List α) = ns at h
    cases h with
    | stay => rfl
    | step walk next => simp at empty
  · rintro rfl
    exact stay

theorem concat_iff : Walk R a (ns ++ [m]) b ↔ Walk R a ns m ∧ R m b := by
  constructor
  · intro h
    generalize whole : ns ++ [m] = ms at h
    cases h with
    | stay => simp at whole
    | step walk next =>
      obtain ⟨rfl, last⟩ := List.append_inj' whole rfl
      obtain rfl : m = _ := by simpa using last
      exact ⟨walk, next⟩
  · rintro ⟨walk, next⟩
    exact walk.step next

/-- A walk comes apart wherever its nodes do. -/
theorem append_iff : Walk R a (ms ++ ns) c ↔ ∃ b, Walk R a ms b ∧ Walk R b ns c := by
  constructor
  · intro h
    induction ns using List.reverseRecOn generalizing c with
    | nil => exact ⟨c, by simpa using h, stay⟩
    | append_singleton ns m ih =>
      rw [← List.append_assoc, concat_iff] at h
      obtain ⟨b, first, second⟩ := ih h.1
      exact ⟨b, first, second.step h.2⟩
  · rintro ⟨b, first, second⟩
    exact first.append second

theorem cons_iff : Walk R a (m :: ns) c ↔ m = a ∧ ∃ b, R a b ∧ Walk R b ns c := by
  constructor
  · intro h
    obtain ⟨b, first, second⟩ := append_iff.1 (show Walk R a ([m] ++ ns) c from h)
    obtain ⟨stays, next⟩ := concat_iff.1 (show Walk R a ([] ++ [m]) b from first)
    obtain rfl := nil_iff.1 stays
    exact ⟨rfl, b, next, second⟩
  · rintro ⟨rfl, b, next, rest⟩
    exact cons next rest

/-- Before a node of a walk stands a walk to it, and from it on one from it. -/
theorem split_iff : Walk R a (pre ++ m :: post) c ↔ Walk R a pre m ∧ Walk R m (m :: post) c := by
  rw [append_iff]
  constructor
  · rintro ⟨b, first, second⟩
    obtain ⟨rfl, -⟩ := cons_iff.1 second
    exact ⟨first, second⟩
  · rintro ⟨first, second⟩
    exact ⟨m, first, second⟩

theorem mono (le : ∀ x y, R x y → S x y) (h : Walk R a ns b) : Walk S a ns b := by
  induction h with
  | stay => exact stay
  | step walk next ih => exact ih.step (le _ _ next)

/-- What steps keep, walks keep. -/
theorem keeps {P : α → Prop} (keep : ∀ x y, R x y → P x → P y) (h : Walk R a ns b) (start : P a) :
    P b := by
  induction h with
  | stay => exact start
  | step walk next ih => exact keep _ _ next ih

/-- What grows with each step is greater after a walk. -/
theorem lt_of_steps {f : α → Nat} (h : Walk R a (a :: ms) b) (up : ∀ x y, R x y → f x < f y) :
    f a < f b := by
  obtain ⟨-, c, step, rest⟩ := cons_iff.1 h
  have keep : f c ≤ f b := rest.keeps (P := (f c ≤ f ·))
    (fun x y next le => Nat.le_of_lt (Nat.lt_of_le_of_lt le (up x y next))) (Nat.le_refl _)
  exact Nat.lt_of_lt_of_le (up a c step) keep

/-- What steps keep against their direction, walks keep against theirs. -/
theorem keepsBack {P : α → Prop} (keep : ∀ x y, R x y → P y → P x) (h : Walk R a ns b)
    (stop : P b) : P a := by
  induction h with
  | stay => exact stop
  | step walk next ih => exact ih (keep _ _ next stop)

/-- A walk with at least one step, backwards: the nodes in between change their order. -/
theorem reverse (h : Walk R a (a :: ms) b) : Walk (fun x y => R y x) b (b :: ms.reverse) a := by
  induction ms using List.reverseRecOn generalizing b with
  | nil =>
    obtain ⟨-, c, next, rest⟩ := cons_iff.1 h
    obtain rfl := nil_iff.1 rest
    exact single next
  | append_singleton ms m ih =>
    obtain ⟨walk, next⟩ := concat_iff.1 (show Walk R a ((a :: ms) ++ [m]) b from h)
    simpa using cons (R := fun x y => R y x) next (ih walk)

/-- A walk goes on from the last time that it is where it starts. -/
theorem leave (h : Walk R a (a :: ms) b) : ∃ ns, Walk R a (a :: ns) b ∧ a ∉ ns ∧ ns ⊆ ms := by
  induction ms using List.reverseRecOn generalizing b with
  | nil => exact ⟨[], h, List.not_mem_nil, List.nil_subset []⟩
  | append_singleton ms m ih =>
    obtain ⟨walk, next⟩ := concat_iff.1 (show Walk R a ((a :: ms) ++ [m]) b from h)
    by_cases back : m = a
    · exact ⟨[], single (back ▸ next), List.not_mem_nil, List.nil_subset _⟩
    · obtain ⟨ns, last, left, sub⟩ := ih walk
      refine ⟨ns ++ [m], last.step next, ?_, ?_⟩
      · rw [List.mem_append, List.mem_singleton]
        intro mem
        exact mem.elim left fun same => back same.symm
      · intro x hx
        cases List.mem_append.1 hx with
        | inl hx => exact List.mem_append_left _ (sub hx)
        | inr hx => exact List.mem_append_right _ hx

theorem start_mem (h : Walk R a ns b) : a ∈ ns ++ [b] := by
  cases ns with
  | nil =>
    obtain rfl := nil_iff.1 h
    exact List.mem_singleton_self _
  | cons m ms =>
    obtain ⟨rfl, -⟩ := cons_iff.1 h
    exact List.mem_cons_self

/-- From each of its nodes a walk goes on to its end. -/
theorem onward (h : Walk R a ns b) (hm : m ∈ ns ++ [b]) : ∃ ms, Walk R m ms b := by
  obtain before | last := List.mem_append.1 hm
  · obtain ⟨pre, post, rfl⟩ := List.append_of_mem before
    exact ⟨m :: post, (split_iff.1 h).2⟩
  · obtain rfl := List.mem_singleton.1 last
    exact ⟨[], stay⟩

/-- A step leaves each node before the end of a walk. -/
theorem next_of_mem (h : Walk R a ns b) (hm : m ∈ ns) : ∃ c, R m c := by
  obtain ⟨pre, post, rfl⟩ := List.append_of_mem hm
  obtain ⟨-, c, next, -⟩ := cons_iff.1 (split_iff.1 h).2
  exact ⟨c, next⟩

/-- A walk out of a region comes apart where it first leaves it. -/
theorem firstOutside {P : α → Prop} (h : Walk R a ns b) (inside : P a) (outside : ¬ P b) :
    ∃ ms m c rest, ns = ms ++ rest ∧ Walk R a ms c ∧ (∀ x ∈ ms, P x) ∧ P m ∧ R m c ∧ ¬ P c ∧
      Walk R c rest b := by
  induction ns generalizing a with
  | nil => exact absurd (nil_iff.1 h ▸ inside) outside
  | cons x ns ih =>
    obtain ⟨rfl, c, next, rest⟩ := cons_iff.1 h
    by_cases stays : P c
    · obtain ⟨ms, m, e, post, rfl, walk, all, last, step, out, second⟩ := ih rest stays
      exact ⟨x :: ms, m, e, post, rfl, cons next walk, List.forall_mem_cons.2 ⟨inside, all⟩, last,
        step, out, second⟩
    · exact ⟨[x], x, c, ns, rfl, single next, by simpa using inside, inside, next, stays, rest⟩

/-- Where a walk leads, the steps backwards lead back. -/
theorem reversed (h : Walk R a ns b) : ∃ ms, Walk (fun x y => R y x) b ms a := by
  cases ns with
  | nil =>
    obtain rfl := nil_iff.1 h
    exact ⟨[], stay⟩
  | cons m ms =>
    obtain ⟨rfl, -⟩ := cons_iff.1 h
    exact ⟨_, h.reverse⟩

end Walk
end FlowAnalysis
