import FlowAnalysis.Proofs.Statement.Grouping
import FlowAnalysis.Proofs.Statement.Sites
import Mathlib.Algebra.GroupWithZero.Nat
import Mathlib.Data.List.Nodup

/-!
The edges that leave each node, in their order. Main statements: from the site of a statement lead
the edges that the form of the statement asks for, the last of which may go back to the test of a
loop; and if the edges from each node lead to different nodes, then no two edges have both ends in
common.
-/
namespace FlowAnalysis
namespace Statement

variable {es fs : List (Edge EdgeKind)} {xs : List (Nat × EdgeKind)} {n d : Nat}

/-- Target and kind of the edges from node `n`. -/
def outEdges (es : List (Edge EdgeKind)) (n : Nat) : List (Nat × EdgeKind) :=
  (es.filter (·.source == n)).map fun e => (e.target, e.data)

@[simp] theorem outEdges_append : outEdges (es ++ fs) n = outEdges es n ++ outEdges fs n := by
  rw [outEdges, List.filter_append, List.map_append, outEdges, outEdges]

theorem outEdges_eq_nil (away : ∀ e ∈ es, e.source ≠ n) : outEdges es n = [] := by
  rw [outEdges, List.map_eq_nil_iff, List.filter_eq_nil_iff]
  simpa using away

/-- Edges that all leave one node leave no other. -/
theorem outEdges_of_ne {i : Nat} (source : ∀ e ∈ es, e.source = i) (ne : n ≠ i) :
    outEdges es n = [] := outEdges_eq_nil fun e he same => ne (same ▸ source e he)

theorem SameEnds.outEdges_eq (h : SameEnds es fs) (n : Nat) : outEdges es n = outEdges fs n := by
  rw [outEdges, outEdges, h.leaving]

theorem mem_outEdges {m : Nat} {kind : EdgeKind} :
    (m, kind) ∈ outEdges es n ↔ ⟨n, m, kind⟩ ∈ es := by
  simp only [outEdges, List.mem_map, List.mem_filter, beq_iff_eq, Prod.mk.injEq]
  constructor
  · rintro ⟨e, ⟨mem, rfl⟩, rfl, rfl⟩
    exact mem
  · intro mem
    exact ⟨_, ⟨mem, rfl⟩, rfl, rfl⟩

/-- Where the edges from each node lead to different nodes, edges differ in an end. -/
theorem nodup_map_ends (apart : ∀ n, ((outEdges es n).map Prod.fst).Nodup) :
    (es.map fun e => (e.source, e.target)).Nodup := by
  rw [List.nodup_iff_count_le_one]
  rintro ⟨a, b⟩
  have once := List.nodup_iff_count_le_one.1 (apart a) b
  rw [outEdges, List.map_map, List.count_eq_countP, List.countP_map, List.countP_filter] at once
  rw [List.count_eq_countP, List.countP_map]
  refine Nat.le_trans (List.countP_mono_left fun e _ same => ?_) once
  simp only [Function.comp_apply, beq_iff_eq, Prod.mk.injEq, Bool.and_eq_true] at same ⊢
  exact same.symm

theorem countP_source_lt_succ (es : List (Edge EdgeKind)) (k : Nat) :
    es.countP (·.source < k + 1) = es.countP (·.source < k) + (outEdges es k).length := by
  rw [outEdges, List.length_map, ← List.countP_eq_length_filter]
  induction es with
  | nil => rfl
  | cons e es ih =>
    simp only [List.countP_cons, ih, decide_eq_true_eq, beq_iff_eq]
    split_ifs <;> omega

/-- Edges are counted node by node. -/
theorem length_eq_sum (below : ∀ e ∈ es, e.source < n) :
    es.length = ((List.range n).map fun k => (outEdges es k).length).sum := by
  have counted : ∀ k, es.countP (·.source < k) =
      ((List.range k).map fun j => (outEdges es j).length).sum := by
    intro k
    induction k with
    | zero => simp
    | succ k ih =>
      rw [countP_source_lt_succ, ih, List.range_succ]
      simp
  rw [← counted, List.countP_eq_length.2 fun e he => decide_eq_true (below e he)]

/-- Edges from exits to `target`, which go back if `back` says so and are else of the kinds of the
exits. -/
def drawn (back : Bool) (xs : List (Nat × EdgeKind)) (target : Nat) : List (Edge EdgeKind) :=
  xs.map fun x => ⟨x.1, target, bif back then .back else x.2⟩

/-- The edges that leave the site, where `back` tells whether the edge to what runs after it goes
back to the test of a loop. -/
def Site.outEdges (σ : Site) (back : Bool) : List (Nat × EdgeKind) :=
  match σ.statement with
  | skip | assign _ _ => [(σ.next, bif back then .back else .sequential)]
  | seq _ => []
  | loop _ _ => [(σ.node + 1, .whenTrue), (σ.next, bif back then .back else .whenFalse)]
  | branch _ t _ => [(σ.node + 1, .whenTrue), (σ.node + 1 + t.size, .whenFalse)]

theorem Site.length_outEdges {σ : Site} {back : Bool} (point : σ.statement.action?.isSome) :
    (σ.outEdges back).length = if σ.statement.isTest then 2 else 1 := by
  obtain ⟨n, t, next⟩ := σ
  cases t with
  | seq body => cases point
  | _ => rfl

/-- The edges within a statement that starts at node `i`, and those drawn from its exits to `d`. -/
def joined (back : Bool) (i d : Nat) (s : Statement) : List (Edge EdgeKind) :=
  s.edges i ++ drawn back (s.exits i) d

/-- The same for the members of a sequence. -/
def joinedAll (back : Bool) (i d : Nat) (body : List Statement) : List (Edge EdgeKind) :=
  edgesAll i [] body ++ drawn back (exitsAll i body) d

section Parts

variable {s t f : Statement} {body rest : List Statement} {back : Bool} {i : Nat} {c : Expr}

theorem outEdges_drawn_of_not {count : Nat} (bounds : ∀ x ∈ xs, i ≤ x.1 ∧ x.1 < i + count)
    (out : ¬ (i ≤ n ∧ n < i + count)) : outEdges (drawn back xs d) n = [] := by
  refine outEdges_eq_nil (List.forall_mem_map.2 fun x hx => ?_)
  have := bounds x hx
  simp only
  omega

theorem outEdges_edges_of_not (out : ¬ (i ≤ n ∧ n < i + s.size)) :
    outEdges (s.edges i) n = [] := by
  refine outEdges_eq_nil fun e he => ?_
  have source := edges_from s i e he
  have bound := edges_bounds s i e he
  omega

theorem outEdges_edgesAll_of_lt (lt : n < i) : outEdges (edgesAll i [] body) n = [] := by
  refine outEdges_eq_nil fun e he => ?_
  have := edgesAll_from body i i [] (Nat.le_refl i) (by simp) e he
  omega

/-- The edges of a part leave nodes of the part. -/
theorem outEdges_joined_of_not (out : ¬ (i ≤ n ∧ n < i + s.size)) :
    outEdges (s.joined back i d) n = [] := by
  rw [joined, outEdges_append, outEdges_edges_of_not out,
    outEdges_drawn_of_not (exits_bounds s i) out, List.append_nil]

theorem outEdges_joinedAll_of_lt (lt : n < i) : outEdges (joinedAll back i d body) n = [] := by
  rw [joinedAll, outEdges_append, outEdges_edgesAll_of_lt lt,
    outEdges_drawn_of_not (exitsAll_bounds body i) (by omega), List.append_nil]

/-- A loop has the edges of its test and those of its body, from which control goes back to the
test. -/
theorem outEdges_joined_loop : outEdges ((loop c s).joined back i d) n =
    outEdges [⟨i, i + 1, .whenTrue⟩, ⟨i, d, bif back then .back else .whenFalse⟩] n ++
      outEdges (s.joined true (i + 1) i) n := by
  have split : (loop c s).joined back i d = s.edges (i + 1) ++
      ([⟨i, i + 1, .whenTrue⟩] ++ drawn true (s.exits (i + 1)) i) ++
        [⟨i, d, bif back then .back else .whenFalse⟩] := rfl
  rw [split, joined]
  simp only [outEdges_append]
  by_cases test : n = i
  · have within : outEdges (s.edges (i + 1)) n = [] := outEdges_edges_of_not (by omega)
    have around : outEdges (drawn true (s.exits (i + 1)) i) n = [] :=
      outEdges_drawn_of_not (exits_bounds s (i + 1)) (by omega)
    simp only [within, around, List.nil_append, List.append_nil]
    exact outEdges_append.symm
  · have enter : outEdges [⟨i, i + 1, .whenTrue⟩] n = [] := outEdges_of_ne (by simp) test
    have leave : outEdges [⟨i, d, bif back then .back else .whenFalse⟩] n = [] :=
      outEdges_of_ne (by simp) test
    have both : outEdges [⟨i, i + 1, .whenTrue⟩, ⟨i, d, bif back then .back else .whenFalse⟩] n =
        [] := outEdges_of_ne (by simp) test
    rw [enter, leave, both, List.nil_append, List.append_nil, List.nil_append]

/-- A branch has the edges of its test and those of its parts. -/
theorem outEdges_joined_branch : outEdges ((branch c t f).joined back i d) n =
    outEdges [⟨i, i + 1, .whenTrue⟩, ⟨i, i + 1 + t.size, .whenFalse⟩] n ++
      (outEdges (t.joined back (i + 1) d) n ++
        outEdges (f.joined back (i + 1 + t.size) d) n) := by
  have split : (branch c t f).joined back i d = t.edges (i + 1) ++ f.edges (i + 1 + t.size) ++
      [⟨i, i + 1, .whenTrue⟩, ⟨i, i + 1 + t.size, .whenFalse⟩] ++
        (drawn back (t.exits (i + 1)) d ++ drawn back (f.exits (i + 1 + t.size)) d) := by
    rw [joined, edges, exits, drawn, List.map_append]
    rfl
  have yes : n < i + 1 ∨ i + 1 + t.size ≤ n → outEdges (t.edges (i + 1)) n = [] ∧
      outEdges (drawn back (t.exits (i + 1)) d) n = [] := fun out =>
    ⟨outEdges_edges_of_not (by omega), outEdges_drawn_of_not (exits_bounds t _) (by omega)⟩
  have no : n < i + 1 + t.size → outEdges (f.edges (i + 1 + t.size)) n = [] ∧
      outEdges (drawn back (f.exits (i + 1 + t.size)) d) n = [] := fun out =>
    ⟨outEdges_edges_of_not (by omega), outEdges_drawn_of_not (exits_bounds f _) (by omega)⟩
  have test : i < n →
      outEdges [⟨i, i + 1, .whenTrue⟩, ⟨i, i + 1 + t.size, .whenFalse⟩] n = [] := fun lt =>
    outEdges_of_ne (by simp) (Nat.ne_of_gt lt)
  rw [split, joined, joined]
  simp only [outEdges_append]
  obtain before | inYes | inNo : n < i + 1 ∨ i < n ∧ n < i + 1 + t.size ∨ i + 1 + t.size ≤ n := by
    omega
  · simp [yes (Or.inl before), no (Nat.lt_add_right _ before)]
  · simp [test inYes.1, no inYes.2]
  · simp [test (by omega), yes (Or.inr inNo)]

/-- Each member of a sequence has a point. -/
theorem pos_of_mem {body : List Statement} (accepted : issuesAll body = []) :
    ∀ s ∈ body, 0 < s.size := by
  induction body with
  | nil => simp
  | cons s rest ih =>
    rw [issuesAll, List.append_eq_nil_iff] at accepted
    exact List.forall_mem_cons.2 ⟨size_pos accepted.1, ih accepted.2⟩

/-- A sequence has the edges of its members, from each of which control goes on to the next. -/
theorem outEdges_joinedAll_cons (accepted : issuesAll (t :: rest) = []) :
    outEdges (joinedAll back i d (s :: t :: rest)) n =
      outEdges (s.joined false i (i + s.size)) n ++
        outEdges (joinedAll back (i + s.size) d (t :: rest)) n := by
  have split : joinedAll back i d (s :: t :: rest) = s.edges i ++
      edgesAll (i + s.size) (s.exits i) (t :: rest) ++
        drawn back (exitsAll (i + s.size) (t :: rest)) d := by
    rw [joinedAll, edgesAll, exitsAll, link, List.map_nil, List.append_nil]
  have joins : outEdges (edgesAll (i + s.size) (s.exits i) (t :: rest)) n =
      outEdges (edgesAll (i + s.size) [] (t :: rest)) n ++
        outEdges (drawn false (s.exits i) (i + s.size)) n :=
    ((edgesAll_pending (List.cons_ne_nil t rest) (pos_of_mem accepted)
      fun x hx => (exits_bounds s i x hx).2).outEdges_eq n).trans outEdges_append
  rw [split, joined, joinedAll]
  simp only [outEdges_append, joins]
  -- within the first member the rest has no edges, and elsewhere nothing joins it to the rest
  by_cases first : n < i + s.size
  · simp [outEdges_edgesAll_of_lt first]
  · have apart : outEdges (drawn false (s.exits i) (i + s.size)) n = [] :=
      outEdges_drawn_of_not (exits_bounds s i) (by omega)
    simp [apart]

end Parts

-- by recursion on the statement; the edges of the other parts leave other nodes
mutual

theorem exists_outEdges_site {σ : Site} (s : Statement) (block : BlockKind) (i d : Nat)
    (back : Bool) (accepted : s.issues block = []) (mem : σ ∈ s.sites i d) :
    ∃ b, outEdges (s.joined back i d) σ.node = σ.outEdges b := by
  cases s with
  | skip =>
    obtain rfl := List.mem_singleton.1 mem
    exact ⟨back, by simp [joined, edges, exits, drawn, outEdges, Site.outEdges]⟩
  | assign x e =>
    obtain rfl := List.mem_singleton.1 mem
    exact ⟨back, by simp [joined, edges, exits, drawn, outEdges, Site.outEdges]⟩
  | seq body =>
    simp only [issues, List.isEmpty_iff] at accepted
    by_cases empty : body = []
    · simp [empty] at accepted
    · exact exists_outEdges_siteAll body i d back (by simpa [empty] using accepted) mem
  | loop c body =>
    simp only [issues, List.append_eq_nil_iff] at accepted
    rw [outEdges_joined_loop]
    obtain rfl | inner := List.mem_cons.1 mem
    · refine ⟨back, ?_⟩
      rw [outEdges_joined_of_not (by dsimp only; omega)]
      simp [outEdges, Site.outEdges]
    · obtain ⟨b, found⟩ := exists_outEdges_site body .loopBody (i + 1) i true accepted.2 inner
      have bounds := site_bounds inner
      have test : outEdges [⟨i, i + 1, .whenTrue⟩, ⟨i, d, bif back then .back else .whenFalse⟩]
          σ.node = [] := outEdges_of_ne (by simp) (Nat.ne_of_gt bounds.1)
      exact ⟨b, by rw [test, found, List.nil_append]⟩
  | branch c t f =>
    simp only [issues, List.append_eq_nil_iff] at accepted
    rw [outEdges_joined_branch]
    obtain rfl | parts := List.mem_cons.1 mem
    · refine ⟨back, ?_⟩
      rw [outEdges_joined_of_not (by dsimp only; omega),
        outEdges_joined_of_not (by dsimp only; omega)]
      simp [outEdges, Site.outEdges]
    · have test : i < σ.node →
          outEdges [⟨i, i + 1, .whenTrue⟩, ⟨i, i + 1 + t.size, .whenFalse⟩] σ.node = [] :=
        fun lt => outEdges_of_ne (by simp) (Nat.ne_of_gt lt)
      obtain yes | no := List.mem_append.1 parts
      · obtain ⟨b, found⟩ := exists_outEdges_site t .trueBranch (i + 1) d back accepted.1.2 yes
        have bounds := site_bounds yes
        refine ⟨b, ?_⟩
        rw [test (by omega), found, outEdges_joined_of_not (by omega), List.nil_append,
          List.append_nil]
      · obtain ⟨b, found⟩ :=
          exists_outEdges_site f .falseBranch (i + 1 + t.size) d back accepted.2 no
        have bounds := site_bounds no
        refine ⟨b, ?_⟩
        rw [test (by omega), found, outEdges_joined_of_not (by omega), List.nil_append,
          List.nil_append]

theorem exists_outEdges_siteAll {σ : Site} (body : List Statement) (i d : Nat) (back : Bool)
    (accepted : issuesAll body = []) (mem : σ ∈ sitesAll i d body) :
    ∃ b, outEdges (joinedAll back i d body) σ.node = σ.outEdges b := by
  match body with
  | [] => cases mem
  | [s] =>
    rw [issuesAll, issuesAll, List.append_nil] at accepted
    simpa [joinedAll, joined, edgesAll, link, exitsAll] using
      exists_outEdges_site s .sequence i d back accepted mem
  | s :: t :: rest =>
    rw [issuesAll, List.append_eq_nil_iff] at accepted
    rw [outEdges_joinedAll_cons accepted.2]
    obtain first | others := List.mem_append.1 mem
    · obtain ⟨b, found⟩ :=
        exists_outEdges_site s .sequence i (i + s.size) false accepted.1 first
      refine ⟨b, ?_⟩
      rw [found, outEdges_joinedAll_of_lt (site_bounds first).2, List.append_nil]
    · obtain ⟨b, found⟩ :=
        exists_outEdges_siteAll (t :: rest) (i + s.size) d back accepted.2 others
      have bounds := siteAll_bounds others
      refine ⟨b, ?_⟩
      rw [outEdges_joined_of_not (by omega), found, List.nil_append]

end

end Statement
end FlowAnalysis
