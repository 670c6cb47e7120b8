import FlowAnalysis.Proofs.Digraph.Traversal

/-!
Depth-first search by recursion. Main statement: a search with a stack, and the loop that keeps
cursors on it, go through the events of the recursive search: what is on the stack is what the calls
under way have still to do.
-/
namespace FlowAnalysis.Digraph

variable {N E : Type} {g : Digraph N E} {seen : BitSet} {n m : Nat} {ms : List Nat}
  {stack rest : List Frame}

/-- The recursive search of node `n` from its successors `pending` on: its events and the nodes seen
after it. Each successor is reported, and searched at once if it has not been seen; after the last
one `n` is finished. A search leaves no more room than it has found, so it may go on with `pending`
after the search of a successor. -/
def explore (g : Digraph N E) (seen : BitSet) (n : Nat) (pending : List Nat) :
    { result : List Event × BitSet // result.2.room ≤ seen.room } :=
  match pending with
  | [] => ⟨([.finish n], seen), Nat.le_refl _⟩
  | m :: ms =>
    if new : seen.lacks m then
      let inner := g.explore (seen.add m) m (g.successors m)
      have less : inner.val.2.room < seen.room :=
        Nat.lt_of_le_of_lt inner.property (BitSet.room_add_lt new)
      let rest := g.explore inner.val.2 n ms
      ⟨(.edge n m :: (inner.val.1 ++ rest.val.1), rest.val.2),
        Nat.le_trans rest.property (Nat.le_of_lt less)⟩
    else
      let rest := g.explore seen n ms
      ⟨(.edge n m :: rest.val.1, rest.val.2), rest.property⟩
termination_by (seen.room, pending.length)
decreasing_by
  · exact Prod.Lex.left _ _ (BitSet.room_add_lt new)
  · exact Prod.Lex.left _ _ less
  · exact Prod.Lex.right _ (Nat.lt_succ_self _)

/-- The events of the recursive search from `start`; none if there is no such node. -/
def recursiveEvents (g : Digraph N E) (start : Nat) : List Event :=
  if start < g.nodeCount then
    (g.explore ((BitSet.empty g.nodeCount).add start) start (g.successors start)).val.1
  else []

theorem explore_nil : (g.explore seen n []).val = ([.finish n], seen) := by
  rw [explore]

theorem explore_new (new : seen.lacks m = true) : (g.explore seen n (m :: ms)).val =
    let inner := (g.explore (seen.add m) m (g.successors m)).val
    let rest := (g.explore inner.2 n ms).val
    (.edge n m :: (inner.1 ++ rest.1), rest.2) := by
  rw [explore, dif_pos new]

theorem explore_old (old : seen.lacks m = false) : (g.explore seen n (m :: ms)).val =
    let rest := (g.explore seen n ms).val
    (.edge n m :: rest.1, rest.2) := by
  rw [explore, dif_neg (Bool.eq_false_iff.1 old)]

/-- What the calls under way have still to do, the innermost one first. -/
def unwind (g : Digraph N E) (seen : BitSet) : List Frame → List Event
  | [] => []
  | ⟨n, pending⟩ :: rest =>
    let result := (g.explore seen n pending).val
    result.1 ++ g.unwind result.2 rest

/-- In every state of a search its stack stands for the calls under way. -/
theorem search_eq_unwind (g : Digraph N E) (seen : BitSet) (stack : List Frame) :
    g.search seen stack = g.unwind seen stack := by
  induction seen, stack using search.induct g with
  | case1 seen => rw [search, unwind]
  | case2 seen n rest ih =>
    rw [search, ih]
    simp only [unwind, explore_nil]
    rfl
  | case3 seen n m ms rest ihEnter ihSkip =>
    rw [search]
    cases new : seen.lacks m with
    | true =>
      rw [dif_pos rfl, ihEnter new]
      simp only [unwind, explore_new new, List.cons_append, List.append_assoc]
    | false =>
      rw [dif_neg Bool.false_ne_true, ihSkip]
      simp only [unwind, explore_old new, List.cons_append]

theorem events_eq_recursiveEvents (g : Digraph N E) (start : Nat) :
    g.events start = g.recursiveEvents start := by
  rw [events, recursiveEvents]
  split
  next => rw [search_eq_unwind, unwind, unwind, List.append_nil]
  next => rfl

/-- From every start, the loop over cursors and flags ends after the events of the recursive search,
and so does the search that keeps the successors still to come. -/
theorem search_is_recursive (g : Digraph N E) (start : Nat) :
    g.indexed.events start = some (g.recursiveEvents start) ∧
      g.events start = g.recursiveEvents start := by
  have same := events_eq_recursiveEvents g start
  exact ⟨same ▸ IndexedGraph.events_indexed g start, same⟩

/-- A loop back to a node that is under search is reported and not followed. -/
example (x y z : N) (e : E) :
    ((((empty.addNode x).addNode y).addNode z).addEdge 0 1 e >>= (·.addEdge 1 0 e) >>=
        (·.addEdge 0 2 e)).toOption.map (·.recursiveEvents 0) =
      some [.edge 0 1, .edge 1 0, .finish 1, .edge 0 2, .finish 2, .finish 0] := by
  cbv

end FlowAnalysis.Digraph
