import FlowAnalysis.Statement.ControlFlow
import FlowAnalysis.Statement.Issue

/-!
Wiring: where control goes from each node of a statement, read off the form of the statement. Main
statements: the edges of a statement without issues wire it, and steps from its nodes stay among
them or lead to what comes next.
-/
namespace FlowAnalysis
namespace Statement

variable {R : Nat → Nat → Prop} {es fs : List (Edge EdgeKind)} {xs : List (Nat × EdgeKind)}
  {a b d i : Nat}

mutual

/-- From the points of `s`, which are the nodes from `i` on, steps of `R` lead where control goes,
and at last to `d`. -/
def Wired (R : Nat → Nat → Prop) (i d : Nat) : Statement → Prop
  | skip => ∀ b, R i b ↔ b = d
  | assign _ _ => ∀ b, R i b ↔ b = d
  | seq body => WiredAll R i d body
  | loop _ body => (∀ b, R i b ↔ b = i + 1 ∨ b = d) ∧ body.Wired R (i + 1) i
  | branch _ t f => (∀ b, R i b ↔ b = i + 1 ∨ b = i + 1 + t.size) ∧
      t.Wired R (i + 1) d ∧ f.Wired R (i + 1 + t.size) d

/-- Each member of a sequence goes on with the next one. Nothing wires an empty sequence. -/
def WiredAll (R : Nat → Nat → Prop) (i d : Nat) : List Statement → Prop
  | [] => False
  | [s] => s.Wired R i d
  | s :: t :: rest => s.Wired R i (i + s.size) ∧ WiredAll R (i + s.size) d (t :: rest)

end

mutual

theorem Wired.size_pos {s : Statement} {i d : Nat} (h : s.Wired R i d) : 0 < s.size := by
  cases s with
  | skip => exact Nat.one_pos
  | assign x e => exact Nat.one_pos
  | seq body => exact WiredAll.size_pos h
  | loop c body => exact Nat.succ_pos _
  | branch c t f => exact Nat.succ_pos _

theorem WiredAll.size_pos {body : List Statement} {i d : Nat} (h : WiredAll R i d body) :
    0 < sizeAll body := by
  match body with
  | [] => exact h.elim
  | [s] => exact Wired.size_pos h
  | s :: t :: rest => exact Nat.add_pos_left h.1.size_pos _

end

mutual

/-- Steps from the nodes of a statement stay among them or lead to what comes next. -/
theorem Wired.closed {s : Statement} {i d : Nat} (h : s.Wired R i d) (le : i ≤ a)
    (lt : a < i + s.size) (step : R a b) : i ≤ b ∧ b < i + s.size ∨ b = d := by
  cases s with
  | skip =>
    obtain rfl : a = i := by simp only [size] at lt; omega
    exact Or.inr ((h b).1 step)
  | assign x e =>
    obtain rfl : a = i := by simp only [size] at lt; omega
    exact Or.inr ((h b).1 step)
  | seq body => exact WiredAll.closed h le lt step
  | loop c body =>
    obtain ⟨test, inner⟩ := h
    have pos := inner.size_pos
    simp only [size] at lt ⊢
    by_cases same : a = i
    · subst same
      have := (test b).1 step
      omega
    · have := inner.closed (by omega) (by omega) step
      omega
  | branch c t f =>
    obtain ⟨test, yes, no⟩ := h
    have posYes := yes.size_pos
    have posNo := no.size_pos
    simp only [size] at lt ⊢
    by_cases same : a = i
    · subst same
      have := (test b).1 step
      omega
    · by_cases inYes : a < i + 1 + t.size
      · have := yes.closed (by omega) inYes step
        omega
      · have := no.closed (by omega) (by omega) step
        omega

theorem WiredAll.closed {body : List Statement} {i d : Nat} (h : WiredAll R i d body)
    (le : i ≤ a) (lt : a < i + sizeAll body) (step : R a b) :
    i ≤ b ∧ b < i + sizeAll body ∨ b = d := by
  match body with
  | [] => exact h.elim
  | [s] => simpa [sizeAll] using Wired.closed h le lt step
  | s :: t :: rest =>
    obtain ⟨first, others⟩ := h
    have pos := others.size_pos
    rw [sizeAll] at lt ⊢
    by_cases inFirst : a < i + s.size
    · have := first.closed le inFirst step
      omega
    · have := others.closed (by omega) (by omega) step
      omega

end

/-- An edge of the list leads from `a` to `b`. -/
def Leads (es : List (Edge EdgeKind)) (a b : Nat) : Prop :=
  ∃ e ∈ es, e.source = a ∧ e.target = b

@[simp] theorem not_leads_nil : ¬ Leads [] a b := by simp [Leads]

@[simp] theorem leads_append : Leads (es ++ fs) a b ↔ Leads es a b ∨ Leads fs a b := by
  simp only [Leads, List.mem_append, or_and_right, exists_or]

@[simp] theorem leads_cons {e : Edge EdgeKind} :
    Leads (e :: es) a b ↔ e.source = a ∧ e.target = b ∨ Leads es a b := by
  simp [Leads]

/-- Node `a` is one of the exits. -/
def Leaves (xs : List (Nat × EdgeKind)) (a : Nat) : Prop := ∃ x ∈ xs, x.1 = a

@[simp] theorem not_leaves_nil : ¬ Leaves [] a := by simp [Leaves]

@[simp] theorem leaves_singleton {kind : EdgeKind} : Leaves [(i, kind)] a ↔ i = a := by
  simp [Leaves]

@[simp] theorem leaves_append {ys : List (Nat × EdgeKind)} :
    Leaves (xs ++ ys) a ↔ Leaves xs a ∨ Leaves ys a := by
  simp only [Leaves, List.mem_append, or_and_right, exists_or]

/-- Edges drawn from exits to one target lead there, of whatever kind they are. -/
theorem leads_map {f : Nat × EdgeKind → Edge EdgeKind} (source : ∀ x, (f x).source = x.1)
    (target : ∀ x, (f x).target = d) : Leads (xs.map f) a b ↔ Leaves xs a ∧ b = d := by
  simp only [Leads, Leaves, List.mem_map]
  constructor
  · rintro ⟨_, ⟨x, hx, rfl⟩, rfl, rfl⟩
    exact ⟨⟨x, hx, (source x).symm⟩, target x⟩
  · rintro ⟨⟨x, hx, rfl⟩, rfl⟩
    exact ⟨_, ⟨x, hx, rfl⟩, source x, target x⟩

@[simp] theorem leads_link : Leads (link xs d) a b ↔ Leaves xs a ∧ b = d :=
  leads_map (fun _ => rfl) fun _ => rfl

@[simp] theorem leads_linkBack : Leads (linkBack xs d) a b ↔ Leaves xs a ∧ b = d :=
  leads_map (fun _ => rfl) fun _ => rfl

theorem Leaves.bounds {s : Statement} (h : Leaves (s.exits i) a) : i ≤ a ∧ a < i + s.size := by
  obtain ⟨x, hx, rfl⟩ := h
  exact s.exits_bounds i x hx

theorem Leaves.boundsAll {body : List Statement} (h : Leaves (exitsAll i body) a) :
    i ≤ a ∧ a < i + sizeAll body := by
  obtain ⟨x, hx, rfl⟩ := h
  exact exitsAll_bounds body i x hx

theorem leads_edgesAll_singleton {s : Statement} :
    Leads (edgesAll i [] [s]) a b ↔ Leads (s.edges i) a b := by
  simp [edgesAll, link]

/-- The exits of a member of a sequence lead to the next member. -/
theorem leads_edgesAll_cons {s t : Statement} {rest : List Statement} :
    Leads (edgesAll i [] (s :: t :: rest)) a b ↔ Leads (s.edges i) a b ∨
      Leaves (s.exits i) a ∧ b = i + s.size ∨
      Leads (edgesAll (i + s.size) [] (t :: rest)) a b := by
  simp only [edgesAll, leads_append, leads_link, not_leaves_nil, false_and, or_false]
  exact or_congr_right (or_assoc.trans or_left_comm)

mutual

/-- The edges within a statement leave its own nodes. -/
theorem Leads.bounds {s : Statement} {i : Nat} (h : Leads (s.edges i) a b) :
    i ≤ a ∧ a < i + s.size := by
  cases s with
  | skip => simp [edges] at h
  | assign x e => simp [edges] at h
  | seq body => exact Leads.boundsAll h
  | loop c body =>
    simp only [edges, leads_append, leads_cons, leads_linkBack] at h
    rw [size]
    obtain inner | ⟨rfl, -⟩ | ⟨back, -⟩ := h
    · have := inner.bounds
      omega
    · omega
    · have := back.bounds
      omega
  | branch c t f =>
    simp only [edges, leads_append, leads_cons, not_leads_nil, or_false] at h
    rw [size]
    obtain (yes | no) | ⟨rfl, -⟩ | ⟨rfl, -⟩ := h
    · have := yes.bounds
      omega
    · have := no.bounds
      omega
    · omega
    · omega

theorem Leads.boundsAll {body : List Statement} {i : Nat} (h : Leads (edgesAll i [] body) a b) :
    i ≤ a ∧ a < i + sizeAll body := by
  match body with
  | [] => simp [edgesAll] at h
  | [s] => simpa [sizeAll] using (leads_edgesAll_singleton.1 h).bounds
  | s :: t :: rest =>
    rw [leads_edgesAll_cons] at h
    rw [sizeAll]
    obtain first | ⟨out, -⟩ | others := h
    · have := first.bounds
      omega
    · have := out.bounds
      omega
    · have := others.boundsAll
      omega

end

-- by recursion on the statement; each part is left only by its own edges and exits, so what the
-- relation does at its nodes is what it does at those nodes of the whole
mutual

/-- A relation that does at the nodes of a statement what its edges say, and leads from its exits to
`d`, wires it. -/
theorem wired (s : Statement) (block : BlockKind) (i d : Nat) (accepted : s.issues block = [])
    (h : ∀ a b, i ≤ a → a < i + s.size →
      (R a b ↔ Leads (s.edges i) a b ∨ Leaves (s.exits i) a ∧ b = d)) : s.Wired R i d := by
  cases s with
  | skip =>
    intro b
    simpa [edges, exits] using h i b (Nat.le_refl i) (Nat.lt_succ_self i)
  | assign x e =>
    intro b
    simpa [edges, exits] using h i b (Nat.le_refl i) (Nat.lt_succ_self i)
  | seq body =>
    simp only [issues, List.isEmpty_iff] at accepted
    by_cases empty : body = []
    · simp [empty] at accepted
    · exact wiredAll body i d empty (by simpa [empty] using accepted) h
  | loop c body =>
    simp only [issues, List.append_eq_nil_iff] at accepted
    simp only [size, edges, exits, leads_append, leads_cons, leads_linkBack, leaves_singleton] at h
    refine ⟨fun b => ?_, wired body .loopBody (i + 1) i accepted.2 fun a b le lt => ?_⟩
    · rw [h i b (Nat.le_refl i) (by omega)]
      constructor
      · rintro ((inner | ⟨-, rfl⟩ | ⟨back, -⟩) | ⟨-, rfl⟩)
        · have := inner.bounds
          omega
        · exact Or.inl rfl
        · have := back.bounds
          omega
        · exact Or.inr rfl
      · rintro (rfl | rfl)
        · exact Or.inl (Or.inr (Or.inl ⟨rfl, rfl⟩))
        · exact Or.inr ⟨rfl, rfl⟩
    · rw [h a b (by omega) (by omega)]
      have other : ¬ i = a := by omega
      simp only [other, false_and, false_or, or_false]
  | branch c t f =>
    simp only [issues, List.append_eq_nil_iff] at accepted
    simp only [size, edges, exits, leads_append, leads_cons, not_leads_nil, or_false,
      leaves_append] at h
    refine ⟨fun b => ?_, wired t .trueBranch (i + 1) d accepted.1.2 fun a b le lt => ?_,
      wired f .falseBranch (i + 1 + t.size) d accepted.2 fun a b le lt => ?_⟩
    · rw [h i b (Nat.le_refl i) (by omega)]
      constructor
      · rintro (((yes | no) | ⟨-, rfl⟩ | ⟨-, rfl⟩) | ⟨outYes | outNo, -⟩)
        · have := yes.bounds
          omega
        · have := no.bounds
          omega
        · exact Or.inl rfl
        · exact Or.inr rfl
        · have := outYes.bounds
          omega
        · have := outNo.bounds
          omega
      · rintro (rfl | rfl)
        · exact Or.inl (Or.inr (Or.inl ⟨rfl, rfl⟩))
        · exact Or.inl (Or.inr (Or.inr ⟨rfl, rfl⟩))
    · have test : ¬ i = a := by omega
      have no : ¬ Leads (f.edges (i + 1 + t.size)) a b := fun no => by
        have := no.bounds
        omega
      have outNo : ¬ Leaves (f.exits (i + 1 + t.size)) a := fun out => by
        have := out.bounds
        omega
      rw [h a b (by omega) (by omega)]
      simp only [test, no, outNo, false_and, or_false]
    · have test : ¬ i = a := by omega
      have yes : ¬ Leads (t.edges (i + 1)) a b := fun yes => by
        have := yes.bounds
        omega
      have outYes : ¬ Leaves (t.exits (i + 1)) a := fun out => by
        have := out.bounds
        omega
      rw [h a b (by omega) (by omega)]
      simp only [test, yes, outYes, false_and, false_or, or_false]

theorem wiredAll (body : List Statement) (i d : Nat) (some : body ≠ [])
    (accepted : issuesAll body = [])
    (h : ∀ a b, i ≤ a → a < i + sizeAll body →
      (R a b ↔ Leads (edgesAll i [] body) a b ∨ Leaves (exitsAll i body) a ∧ b = d)) :
    WiredAll R i d body := by
  match body with
  | [] => exact absurd rfl some
  | [s] =>
    simp only [issuesAll, List.append_nil] at accepted
    refine wired s .sequence i d accepted fun a b le lt => ?_
    rw [h a b le (by simpa [sizeAll] using lt), leads_edgesAll_singleton, exitsAll]
  | s :: t :: rest =>
    rw [issuesAll, List.append_eq_nil_iff] at accepted
    rw [sizeAll] at h
    simp only [leads_edgesAll_cons, exitsAll] at h
    refine ⟨wired s .sequence i (i + s.size) accepted.1 fun a b le lt => ?_,
      wiredAll (t :: rest) (i + s.size) d (List.cons_ne_nil t rest) accepted.2
        fun a b le lt => ?_⟩
    · have others : ¬ Leads (edgesAll (i + s.size) [] (t :: rest)) a b := fun others => by
        have := others.boundsAll
        omega
      have out : ¬ Leaves (exitsAll (i + s.size) (t :: rest)) a := fun out => by
        have := out.boundsAll
        omega
      rw [h a b le (by omega)]
      simp only [others, out, false_and, or_false]
    · have first : ¬ Leads (s.edges i) a b := fun first => by
        have := first.bounds
        omega
      have out : ¬ Leaves (s.exits i) a := fun out => by
        have := out.bounds
        omega
      rw [h a b (by omega) (by omega)]
      simp only [first, out, false_and, false_or]

end

end Statement
end FlowAnalysis
