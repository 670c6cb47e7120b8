import FlowAnalysis.Proofs.Statement.Execution
import FlowAnalysis.Proofs.Statement.Loops
import FlowAnalysis.Proofs.Statement.Offence

/-!
Sites: the nodes at which the statements within a program stand, each with the node of what runs
after the statement. Main statements: the sites are the points of the program, in program order;
where a program is wired, the statement at each site is wired to what runs after it; and the loops
of a program are those of its sites that are loops.
-/
namespace FlowAnalysis
namespace Statement

/-- The statements within a statement that are no sequences, in the order in which they begin. -/
def points (s : Statement) : List Statement :=
  ((s.preorder .sequence).map Prod.snd).filter (·.action?.isSome)

/-- The statement tests something at its point. -/
def isTest : Statement → Bool
  | skip | assign _ _ | seq _ => false
  | loop _ _ | branch _ _ _ => true

/-- A statement with the node of its first point and the node of what runs after it. -/
structure Site where
  node : Nat
  statement : Statement
  next : Nat

mutual

/-- The sites of a statement that starts at node `i`, and after which node `d` comes. What runs
after the body of a loop is the test of the loop. -/
def sites (i d : Nat) : Statement → List Site
  | skip => [⟨i, skip, d⟩]
  | assign x e => [⟨i, assign x e, d⟩]
  | seq body => sitesAll i d body
  | loop c body => ⟨i, loop c body, d⟩ :: body.sites (i + 1) i
  | branch c t f => ⟨i, branch c t f, d⟩ :: (t.sites (i + 1) d ++ f.sites (i + 1 + t.size) d)

/-- What runs after a member of a sequence is the next member. -/
def sitesAll (i d : Nat) : List Statement → List Site
  | [] => []
  | [s] => s.sites i d
  | s :: t :: rest => s.sites i (i + s.size) ++ sitesAll (i + s.size) d (t :: rest)

end

variable {R : Nat → Nat → Prop} {s : Statement} {body : List Statement} {σ : Site} {i d n e : Nat}

mutual

/-- There is a site for each node. -/
theorem map_node_sites (s : Statement) (i d : Nat) :
    (s.sites i d).map (·.node) = List.range' i s.size := by
  cases s with
  | skip => rfl
  | assign x e => rfl
  | seq body => exact map_node_sitesAll body i d
  | loop c body => rw [sites, List.map_cons, map_node_sites body, size, List.range'_succ]
  | branch c t f =>
    rw [sites, List.map_cons, List.map_append, map_node_sites t, map_node_sites f, size,
      List.range'_succ, List.range'_append_1]

theorem map_node_sitesAll (body : List Statement) (i d : Nat) :
    (sitesAll i d body).map (·.node) = List.range' i (sizeAll body) := by
  match body with
  | [] => rfl
  | [s] => exact map_node_sites s i d
  | s :: t :: rest =>
    rw [sitesAll, List.map_append, map_node_sites s, map_node_sitesAll (t :: rest),
      List.range'_append_1]
    rfl

end

mutual

theorem map_statement_sites (s : Statement) (block : BlockKind) (i d : Nat) :
    (s.sites i d).map (·.statement) =
      ((s.preorder block).map Prod.snd).filter (·.action?.isSome) := by
  cases s with
  | skip => rfl
  | assign x e => rfl
  | seq body => exact map_statement_sitesAll body i d
  | loop c body =>
    rw [sites, List.map_cons, map_statement_sites body .loopBody]
    rfl
  | branch c t f =>
    rw [sites, List.map_cons, List.map_append, map_statement_sites t .trueBranch,
      map_statement_sites f .falseBranch, ← List.filter_append, ← List.map_append]
    rfl

theorem map_statement_sitesAll (body : List Statement) (i d : Nat) :
    (sitesAll i d body).map (·.statement) =
      ((preorderAll body).map Prod.snd).filter (·.action?.isSome) := by
  match body with
  | [] => rfl
  | [s] => rw [preorderAll, preorderAll, List.append_nil, sitesAll, map_statement_sites s .sequence]
  | s :: t :: rest =>
    rw [sitesAll, List.map_append, map_statement_sites s .sequence,
      map_statement_sitesAll (t :: rest), ← List.filter_append, ← List.map_append]
    rfl

end

mutual

/-- The statements that have points act as the points do. -/
theorem map_action?_sites (s : Statement) (i d : Nat) :
    (s.sites i d).map (·.statement.action?) = s.actions.map some := by
  cases s with
  | skip => rfl
  | assign x e => rfl
  | seq body => exact map_action?_sitesAll body i d
  | loop c body =>
    rw [sites, List.map_cons, map_action?_sites body]
    rfl
  | branch c t f =>
    rw [sites, List.map_cons, List.map_append, map_action?_sites t, map_action?_sites f,
      ← List.map_append]
    rfl

theorem map_action?_sitesAll (body : List Statement) (i d : Nat) :
    (sitesAll i d body).map (·.statement.action?) = (actionsAll body).map some := by
  match body with
  | [] => rfl
  | [s] => rw [actionsAll, actionsAll, List.append_nil, sitesAll, map_action?_sites s]
  | s :: t :: rest =>
    rw [sitesAll, List.map_append, map_action?_sites s, map_action?_sitesAll (t :: rest),
      ← List.map_append]
    rfl

end

mutual

/-- What stands within a wired statement is wired to what runs after it. -/
theorem Wired.site {s : Statement} {i d : Nat} (h : s.Wired R i d) (mem : σ ∈ s.sites i d) :
    σ.statement.Wired R σ.node σ.next := by
  cases s with
  | skip => exact List.mem_singleton.1 mem ▸ h
  | assign x e => exact List.mem_singleton.1 mem ▸ h
  | seq body => exact WiredAll.site h mem
  | loop c body =>
    obtain rfl | inner := List.mem_cons.1 mem
    · exact h
    · exact h.2.site inner
  | branch c t f =>
    obtain rfl | parts := List.mem_cons.1 mem
    · exact h
    · exact (List.mem_append.1 parts).elim h.2.1.site h.2.2.site

theorem WiredAll.site {body : List Statement} {i d : Nat} (h : WiredAll R i d body)
    (mem : σ ∈ sitesAll i d body) : σ.statement.Wired R σ.node σ.next := by
  match body with
  | [] => exact h.elim
  | [s] => exact Wired.site h mem
  | s :: t :: rest => exact (List.mem_append.1 mem).elim h.1.site h.2.site

end

mutual

/-- The loops are the sites of loops. -/
theorem mem_loops_iff (s : Statement) (i d : Nat) : (n, e) ∈ s.loops i ↔
    ∃ c body next, ⟨n, loop c body, next⟩ ∈ s.sites i d ∧ e = n + 1 + body.size := by
  cases s with
  | skip => simp [loops, sites]
  | assign x v => simp [loops, sites]
  | seq body => exact mem_loopsAll_iff body i d
  | loop c body =>
    rw [loops, List.mem_cons, mem_loops_iff body (i + 1) i, sites]
    simp only [List.mem_cons, Site.mk.injEq, loop.injEq, Prod.mk.injEq]
    grind
  | branch c t f =>
    rw [loops, List.mem_append, mem_loops_iff t (i + 1) d, mem_loops_iff f (i + 1 + t.size) d, sites]
    simp only [List.mem_cons, List.mem_append, Site.mk.injEq, reduceCtorEq, and_false, false_and,
      false_or]
    grind

theorem mem_loopsAll_iff (body : List Statement) (i d : Nat) : (n, e) ∈ loopsAll i body ↔
    ∃ c part next, ⟨n, loop c part, next⟩ ∈ sitesAll i d body ∧ e = n + 1 + part.size := by
  match body with
  | [] => simp [loopsAll, sitesAll]
  | [s] =>
    rw [loopsAll, loopsAll, List.append_nil]
    exact mem_loops_iff s i d
  | s :: t :: rest =>
    rw [loopsAll, List.mem_append, mem_loops_iff s i (i + s.size),
      mem_loopsAll_iff (t :: rest) (i + s.size) d, sitesAll]
    simp only [List.mem_append]
    grind

end

mutual

/-- What runs after a statement stands outside of it. -/
theorem next_outside {s : Statement} {i d : Nat} (mem : σ ∈ s.sites i d)
    (outside : ¬ (i ≤ d ∧ d < i + s.size)) :
    ¬ (σ.node ≤ σ.next ∧ σ.next < σ.node + σ.statement.size) := by
  cases s with
  | skip => exact List.mem_singleton.1 mem ▸ outside
  | assign x e => exact List.mem_singleton.1 mem ▸ outside
  | seq body => exact next_outsideAll mem outside
  | loop c body =>
    obtain rfl | inner := List.mem_cons.1 mem
    · exact outside
    · exact next_outside inner (by omega)
  | branch c t f =>
    obtain rfl | parts := List.mem_cons.1 mem
    · exact outside
    · rw [size] at outside
      obtain yes | no := List.mem_append.1 parts
      · exact next_outside yes (by omega)
      · exact next_outside no (by omega)

theorem next_outsideAll {body : List Statement} {i d : Nat} (mem : σ ∈ sitesAll i d body)
    (outside : ¬ (i ≤ d ∧ d < i + sizeAll body)) :
    ¬ (σ.node ≤ σ.next ∧ σ.next < σ.node + σ.statement.size) := by
  match body with
  | [] => cases mem
  | [s] => exact next_outside mem outside
  | s :: t :: rest =>
    rw [sizeAll] at outside
    obtain first | others := List.mem_append.1 mem
    · exact next_outside first (by omega)
    · exact next_outsideAll others (by omega)

end

theorem map_statement_sites_eq_points : (s.sites i d).map (·.statement) = s.points :=
  map_statement_sites s .sequence i d

@[simp] theorem length_points (s : Statement) : s.points.length = s.size := by
  have nodes := congrArg List.length (map_node_sites s 0 0)
  rwa [List.length_map, List.length_range', ← List.length_map (·.statement),
    map_statement_sites_eq_points] at nodes

theorem isSome_action?_of_site (mem : σ ∈ s.sites i d) : σ.statement.action?.isSome := by
  have point : σ.statement ∈ s.points := by
    rw [← map_statement_sites_eq_points (i := i) (d := d)]
    exact List.mem_map_of_mem mem
  exact (List.mem_filter.1 point).2

theorem map_action?_points : s.points.map action? = s.actions.map some := by
  rw [← map_statement_sites_eq_points (i := 0) (d := 0), List.map_map]
  exact map_action?_sites s 0 0

theorem site_bounds (mem : σ ∈ s.sites i d) : i ≤ σ.node ∧ σ.node < i + s.size := by
  have node := List.mem_map_of_mem (f := Site.node) mem
  rwa [map_node_sites, List.mem_range'_1] at node

theorem siteAll_bounds (mem : σ ∈ sitesAll i d body) : i ≤ σ.node ∧ σ.node < i + sizeAll body := by
  have node := List.mem_map_of_mem (f := Site.node) mem
  rwa [map_node_sitesAll, List.mem_range'_1] at node

/-- In a program the sites come in the order of the nodes. -/
theorem node_of_getElem?_sites (at_n : (s.sites 0 d)[n]? = some σ) : σ.node = n := by
  have lt : n < s.size := by
    rw [← length_points, ← map_statement_sites_eq_points (i := 0) (d := d), List.length_map]
    exact (List.getElem?_eq_some_iff.1 at_n).1
  have node := congrArg (·[n]?) (map_node_sites s 0 d)
  simpa [at_n, lt] using node

/-- A program's sites have the points at the places that the nodes count. -/
theorem getElem?_points_iff {t : Statement} (d : Nat) :
    s.points[n]? = some t ↔ ∃ next, ⟨n, t, next⟩ ∈ s.sites 0 d := by
  rw [← map_statement_sites_eq_points (i := 0) (d := d), List.getElem?_map, Option.map_eq_some_iff]
  constructor
  · rintro ⟨σ, at_n, rfl⟩
    obtain rfl := node_of_getElem?_sites at_n
    exact ⟨σ.next, List.mem_of_getElem? at_n⟩
  · rintro ⟨next, mem⟩
    obtain ⟨k, at_k⟩ := List.getElem?_of_mem mem
    obtain rfl : n = k := node_of_getElem?_sites at_k
    exact ⟨_, at_k, rfl⟩

end Statement
end FlowAnalysis
