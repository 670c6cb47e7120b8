import FlowAnalysis.Proofs.Digraph.Postorder

/-!
The edges that a depth-first search reports. Main statement: they are the edges from the nodes that
it reaches, each as often as it is in the graph; those from one node come in the order of their
insertion, and those from any node but the start come after one into it.
-/
namespace FlowAnalysis.Digraph

variable {N E : Type} {g : Digraph N E} {start n m a b : Nat} {ms : List Nat} {seen : BitSet}
  {stack rest : List Frame}

/-- The edges that a search still has to report, in order. -/
def reports (g : Digraph N E) (seen : BitSet) (stack : List Frame) : List (Nat × Nat) :=
  (g.search seen stack).filterMap fun
    | .edge s t => some (s, t)
    | .finish _ => none

theorem reports_nil : g.reports seen [] = [] := by
  rw [reports, search]
  rfl

theorem reports_finish : g.reports seen (⟨n, []⟩ :: rest) = g.reports seen rest := by
  rw [reports, search]
  rfl

theorem reports_edge : g.reports seen (⟨n, m :: ms⟩ :: rest) = (n, m) ::
    if seen.lacks m then g.reports (seen.add m) (⟨m, g.successors m⟩ :: ⟨n, ms⟩ :: rest)
    else g.reports seen (⟨n, ms⟩ :: rest) := by
  rw [reports, search]
  split <;> rfl

theorem searchEdges_of_lt (lt : start < g.nodeCount) : g.searchEdges start =
    g.reports ((BitSet.empty g.nodeCount).add start) [⟨start, g.successors start⟩] := by
  rw [searchEdges, events, if_pos lt]
  rfl

theorem searchEdges_of_le (le : g.nodeCount ≤ start) : g.searchEdges start = [] := by
  rw [searchEdges, events, if_neg (Nat.not_lt.2 le)]
  rfl

/-- The nodes of the stack finish. -/
theorem mem_finishes_of_mem_stack (mem : n ∈ stack.map (·.node)) : n ∈ g.finishes seen stack := by
  induction seen, stack using search.induct g with
  | case1 seen => cases mem
  | case2 seen k rest ih =>
    rw [finishes_finish]
    obtain rfl | mem := List.mem_cons.1 mem
    · exact List.mem_cons_self
    · exact List.mem_cons_of_mem _ (ih mem)
  | case3 seen k m ms rest ihEnter ihSkip =>
    rw [finishes_edge]
    split
    next new => exact ihEnter new (List.mem_cons_of_mem _ mem)
    next old => exact ihSkip mem

/-- The successors of `a` that are pending on the stack. -/
def pendingAt (stack : List Frame) (a : Nat) : List Nat :=
  stack.flatMap fun f => if f.node = a then f.pending else []

theorem pendingAt_cons : pendingAt (⟨n, ms⟩ :: rest) a =
    (if n = a then ms else []) ++ pendingAt rest a := rfl

theorem pendingAt_eq_nil (absent : a ∉ stack.map (·.node)) : pendingAt stack a = [] := by
  refine List.flatMap_eq_nil_iff.2 fun f hf => if_neg fun same => ?_
  exact absent (same ▸ List.mem_map_of_mem hf)

/-- From a node that a search has seen it reports what is pending there, and from another all
successors if it reaches the node and nothing if it does not. -/
theorem Stacked.filter_reports (h : g.Stacked start seen stack) (a : Nat) :
    (g.reports seen stack).filter (·.1 == a) = (if a ∈ seen then pendingAt stack a
      else if a ∈ g.finishes seen stack then g.successors a else []).map (a, ·) := by
  induction seen, stack using search.induct g with
  | case1 seen => simp [reports_nil, finishes_nil, pendingAt]
  | case2 seen k rest ih =>
    rw [reports_finish, finishes_finish, pendingAt_cons, ite_self, List.nil_append, ih h.finish]
    by_cases known : a ∈ seen
    · rw [if_pos known, if_pos known]
    · have apart : a ≠ k := by
        rintro rfl
        exact known (h.seen _ List.mem_cons_self)
      simp only [known, List.mem_cons, apart, false_or]
  | case3 seen k m ms rest ihEnter ihSkip =>
    have top : k ∈ seen := h.seen _ List.mem_cons_self
    -- what is pending on the stack but for `m` is still to be reported after `m`
    have tail : (if seen.lacks m then
          g.reports (seen.add m) (⟨m, g.successors m⟩ :: ⟨k, ms⟩ :: rest)
        else g.reports seen (⟨k, ms⟩ :: rest)).filter (·.1 == a) =
        (if a ∈ seen then pendingAt (⟨k, ms⟩ :: rest) a
          else if a ∈ g.finishes seen (⟨k, m :: ms⟩ :: rest) then g.successors a else []).map
          (a, ·) := by
      rw [finishes_edge]
      split
      next new =>
        have entered := h.enter new
        rw [ihEnter new entered, pendingAt_cons]
        by_cases same : m = a
        · subst same
          have unseen : m ∉ seen := (BitSet.lacks_iff.1 new).2
          have seen : m ∈ seen.add m := entered.seen _ List.mem_cons_self
          have below : pendingAt (⟨k, ms⟩ :: rest) m = [] :=
            pendingAt_eq_nil (List.nodup_cons.1 entered.nodup).1
          rw [if_pos seen, if_pos rfl, below, List.append_nil, if_neg unseen,
            if_pos (mem_finishes_of_mem_stack List.mem_cons_self)]
        · have keeps : a ∈ seen.add m ↔ a ∈ seen := by
            simp [BitSet.mem_add, Ne.symm same]
          simp only [keeps, if_neg same, List.nil_append]
      next old => exact ihSkip h.skip
    rw [reports_edge, List.filter_cons, tail, pendingAt_cons, pendingAt_cons]
    by_cases same : k = a
    · subst same
      simp [top]
    · simp [same]

theorem filter_searchEdges (g : Digraph N E) (start a : Nat) :
    (g.searchEdges start).filter (·.1 == a) =
      if a ∈ g.postorder start then (g.successors a).map (a, ·) else [] := by
  by_cases lt : start < g.nodeCount
  · rw [searchEdges_of_lt lt, (stacked_start lt).filter_reports, postorder_eq lt]
    by_cases same : start = a
    · subst same
      simp [lt, pendingAt, mem_finishes_of_mem_stack]
    · have unseen : a ∉ (BitSet.empty g.nodeCount).add start := by simp [Ne.symm same]
      rw [if_neg unseen]
      split <;> rfl
  · rw [searchEdges_of_le (Nat.le_of_not_lt lt)]
    simp [postorder, events, lt]

/-- What leaves a node that is not on the stack comes after an edge into it. -/
theorem exists_entering {pre post : List (Nat × Nat)}
    (whole : g.reports seen stack = pre ++ (a, b) :: post) (absent : a ∉ stack.map (·.node)) :
    ∃ c, (c, a) ∈ pre := by
  induction seen, stack using search.induct g generalizing pre with
  | case1 seen => simp [reports_nil] at whole
  | case2 seen k rest ih =>
    rw [reports_finish] at whole
    exact ih whole fun mem => absent (List.mem_cons_of_mem _ mem)
  | case3 seen k m ms rest ihEnter ihSkip =>
    rw [reports_edge] at whole
    cases pre with
    | nil =>
      obtain ⟨same, -⟩ := List.cons.inj whole
      obtain ⟨rfl, -⟩ := Prod.mk.inj same
      exact absurd List.mem_cons_self absent
    | cons first pre =>
      obtain ⟨rfl, later⟩ := List.cons.inj whole
      split at later
      next new =>
        by_cases same : a = m
        · exact ⟨k, same ▸ List.mem_cons_self⟩
        · have off : a ∉ m :: k :: rest.map (·.node) := fun mem =>
            (List.mem_cons.1 mem).elim same absent
          obtain ⟨c, mem⟩ := ihEnter new later off
          exact ⟨c, List.mem_cons_of_mem _ mem⟩
      next old =>
        obtain ⟨c, mem⟩ := ihSkip later absent
        exact ⟨c, List.mem_cons_of_mem _ mem⟩

/-- Lists of pairs with the same first parts hold the same if they do from each first part. -/
theorem perm_of_filter {es fs : List (Nat × Nat)}
    (same : ∀ a, es.filter (·.1 == a) = fs.filter (·.1 == a)) : es.Perm fs := by
  refine List.perm_iff_count.2 fun (a, b) => ?_
  have kept : ∀ l : List (Nat × Nat), (l.filter (·.1 == a)).count (a, b) = l.count (a, b) :=
    fun l => List.count_filter (p := fun x : Nat × Nat => x.1 == a) (beq_self_eq_true a)
  rw [← kept es, same, kept fs]

/-- `es` lists the edges that a search from `start` comes by. -/
structure Lists (g : Digraph N E) (start : Nat) (es : List (Nat × Nat)) : Prop where
  perm : es.Perm ((g.edges.toList.filter (·.source ∈ g.reachableFrom start)).map
    fun e => (e.source, e.target))
  ordered : ∀ a ∈ g.reachableFrom start, es.filter (·.1 == a) =
    (g.edges.toList.filter (·.source == a)).map fun e => (e.source, e.target)
  entering : ∀ pre a b post, es = pre ++ (a, b) :: post → a ≠ start → ∃ c, (c, a) ∈ pre

theorem mem_reachableFrom_iff_mem_postorder :
    a ∈ g.reachableFrom start ↔ a ∈ g.postorder start := by
  rw [mem_reachableFrom, mem_postorder_iff]

theorem map_successors (g : Digraph N E) (a : Nat) : (g.successors a).map (a, ·) =
    (g.edges.toList.filter (·.source == a)).map fun e => (e.source, e.target) := by
  rw [successors_eq, List.map_map]
  refine List.map_congr_left fun e he => ?_
  have from_a : e.source = a := by simpa using List.of_mem_filter he
  rw [from_a]
  rfl

/-- Of the edges that leave the members of a set, those that leave one node. -/
theorem filter_edges_leaving (g : Digraph N E) (s : BitSet) (a : Nat) :
    ((g.edges.toList.filter (·.source ∈ s)).map fun e => (e.source, e.target)).filter (·.1 == a) =
      if a ∈ s then (g.successors a).map (a, ·) else [] := by
  rw [map_successors, List.filter_map, List.filter_filter]
  split
  next mem =>
    refine congrArg _ (List.filter_congr fun e _ => ?_)
    by_cases here : e.source = a
    · simp [here, mem]
    · simp [here]
  next absent =>
    refine List.map_eq_nil_iff.2 (List.filter_eq_nil_iff.2 fun e _ => ?_)
    by_cases here : e.source = a
    · simp [here, absent]
    · simp [here]

theorem lists_searchEdges (g : Digraph N E) (start : Nat) :
    g.Lists start (g.searchEdges start) where
  perm := by
    refine perm_of_filter fun a => ?_
    rw [filter_searchEdges, filter_edges_leaving]
    simp only [mem_reachableFrom_iff_mem_postorder]
  ordered := by
    intro a reached
    rw [filter_searchEdges, if_pos (mem_reachableFrom_iff_mem_postorder.1 reached), map_successors]
  entering := by
    intro pre a b post whole apart
    rcases Nat.lt_or_ge start g.nodeCount with lt | le
    · rw [searchEdges_of_lt lt] at whole
      exact exists_entering whole (by simpa using apart)
    · rw [searchEdges_of_le le] at whole
      simp at whole

end FlowAnalysis.Digraph
