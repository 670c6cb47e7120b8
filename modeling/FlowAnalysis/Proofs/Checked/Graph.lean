import FlowAnalysis.Proofs.GenKill.Sweep

/-!
Traversals with every access checked: they read the adjacency lists, the edges that these number and
the flags of nodes, and have no outcome if any of that is missing. Main statement: on every graph,
from any start, they have the outcome of the traversals that do not check.
-/
namespace FlowAnalysis

namespace Checked

section Digraph

variable {N E : Type} (g : Digraph N E)

/-- For each node the numbers of the edges whose given end it is. -/
def adjacency (ends : Edge E → Nat) : Array (List Nat) :=
  Array.ofFn fun n : Fin g.nodeCount =>
    (g.edges.toList.zipIdx.filter fun (e, _) => ends e == n.val).map Prod.snd

/-- The other ends of the edges at `n`. -/
def neighbours (ends others : Edge E → Nat) (n : Nat) : Option (List Nat) := do
  (← (adjacency g ends)[n]?).mapM fun e => others <$> g.edges[e]?

def successors (n : Nat) : Option (List Nat) := neighbours g (·.source) (·.target) n

def predecessors (n : Nat) : Option (List Nat) := neighbours g (·.target) (·.source) n

/-- A search that reads the flag of each node that it looks at. -/
def search (seen : BitSet) (stack : List Digraph.Frame) : Option (List Digraph.Event) :=
  match stack with
  | [] => some []
  | ⟨n, []⟩ :: rest => do return .finish n :: (← search seen rest)
  | ⟨n, m :: ms⟩ :: rest =>
    if m < seen.size then
      if _ : seen.lacks m then do
        let next ← successors g m
        return .edge n m :: (← search (seen.add m) (⟨m, next⟩ :: ⟨n, ms⟩ :: rest))
      else do return .edge n m :: (← search seen (⟨n, ms⟩ :: rest))
    else none
termination_by (seen.room, Digraph.load stack)
decreasing_by
  · exact Prod.Lex.right _ (by simp [Digraph.load])
  · exact Prod.Lex.left _ _ (BitSet.room_add_lt ‹_›)
  · exact Prod.Lex.right _ (by simp [Digraph.load])

def events (start : Nat) : Option (List Digraph.Event) :=
  if start < g.nodeCount then do
    let (seen, _) ← ((BitSet.empty g.nodeCount).insert start).toOption
    search g seen [⟨start, ← successors g start⟩]
  else some []

def searchEdges (start : Nat) : Option (List (Nat × Nat)) := do
  return (← events g start).filterMap fun
    | .edge s t => some (s, t)
    | .finish _ => none

def postorder (start : Nat) : Option (List Nat) := do
  return (← events g start).filterMap fun
    | .edge _ _ => none
    | .finish n => some n

/-- The flags of the nodes that a search from `start` finishes. -/
def reachableFrom (start : Nat) : Option BitSet := do
  (BitSet.ofList g.nodeCount (← postorder g start)).toOption

/-- A closure that reads the flag of each node that it looks at. -/
def closeBackwards (reached : BitSet) (work : List Nat) : Option BitSet :=
  match work with
  | [] => some reached
  | n :: rest =>
    if n < reached.size then
      if _ : reached.lacks n then do
        closeBackwards (reached.add n) ((← predecessors g n) ++ rest)
      else closeBackwards reached rest
    else none
termination_by (reached.room, work.length)
decreasing_by
  · exact Prod.Lex.left _ _ (BitSet.room_add_lt ‹_›)
  · exact Prod.Lex.right _ (by simp)

def reachingTo (target : Nat) : Option BitSet :=
  if target < g.nodeCount then closeBackwards g (.empty g.nodeCount) [target]
  else some (.empty g.nodeCount)

variable {g} {n start target : Nat}

/-- Edges are found under their numbers. -/
theorem mapM_numbers {α : Type} (edges : Array (Edge E)) (p : Edge E → Bool) (read : Edge E → α) :
    ((edges.toList.zipIdx.filter fun (e, _) => p e).map Prod.snd).mapM
      (fun e => read <$> edges[e]?) = some ((edges.toList.filter p).map read) := by
  have known : ∀ x ∈ edges.toList.zipIdx.filter (fun (e, _) => p e),
      read <$> edges[x.2]? = some (read x.1) := by
    intro (e, i) mem
    have at_i := List.mem_zipIdx_iff_getElem?.1 (List.mem_filter.1 mem).1
    rw [Array.getElem?_toList] at at_i
    rw [at_i]
    rfl
  have whole : edges.toList = edges.toList.zipIdx.map Prod.fst := (List.zipIdx_map_fst _ _).symm
  rw [List.mapM_map]
  refine (mapM_eq_pure known).trans (congrArg some ?_)
  conv_rhs => rw [whole, List.filter_map, List.map_map]
  rfl

theorem neighbours_eq {ends others : Edge E → Nat} (lt : n < g.nodeCount) :
    neighbours g ends others n = some ((g.edges.toList.filter (ends · == n)).map others) := by
  have numbered : (adjacency g ends)[n]? =
      some ((g.edges.toList.zipIdx.filter fun (e, _) => ends e == n).map Prod.snd) := by
    rw [adjacency, Array.getElem?_ofFn, dif_pos lt]
  rw [neighbours, numbered]
  exact mapM_numbers g.edges (ends · == n) others

theorem successors_eq (lt : n < g.nodeCount) : successors g n = some (g.successors n) := by
  rw [Digraph.successors_eq]
  exact neighbours_eq lt

theorem predecessors_eq (lt : n < g.nodeCount) : predecessors g n = some (g.predecessors n) := by
  rw [Digraph.predecessors_eq]
  exact neighbours_eq lt

/-- A search of nodes of the graph reads and writes their flags alone. -/
theorem search_eq {seen : BitSet} {stack : List Digraph.Frame} (size : seen.size = g.nodeCount)
    (inside : ∀ f ∈ stack, ∀ m ∈ f.pending, m < g.nodeCount) :
    search g seen stack = some (g.search seen stack) := by
  induction seen, stack using Digraph.search.induct g with
  | case1 seen => rw [search, Digraph.search]
  | case2 seen n rest ih =>
    rw [search, Digraph.search, ih size (List.forall_mem_cons.1 inside).2]
    rfl
  | case3 seen n m ms rest ihEnter ihSkip =>
    obtain ⟨here, below⟩ := List.forall_mem_cons.1 inside
    obtain ⟨lt, pending⟩ := List.forall_mem_cons.1 here
    rw [search, Digraph.search, if_pos (size ▸ lt), successors_eq lt]
    split
    next new =>
      have next : ∀ k ∈ g.successors m, k < g.nodeCount := fun k hk => Digraph.Step.target_lt hk
      have rest := ihEnter new ((BitSet.size_add seen m).trans size)
        (List.forall_mem_cons.2 ⟨next, List.forall_mem_cons.2 ⟨pending, below⟩⟩)
      simp only [bind, Option.bind, rest]
      rfl
    next old =>
      rw [ihSkip size (List.forall_mem_cons.2 ⟨pending, below⟩)]
      rfl

theorem events_eq (g : Digraph N E) (start : Nat) : events g start = some (g.events start) := by
  rw [events, Digraph.events]
  split
  next lt =>
    have next : ∀ k ∈ g.successors start, k < g.nodeCount := fun k hk => Digraph.Step.target_lt hk
    have empty : start < (BitSet.empty g.nodeCount).size := lt
    rw [BitSet.insert_of_lt empty, successors_eq lt]
    exact search_eq (BitSet.size_add ..) (List.forall_mem_singleton.2 next)
  next => rfl

theorem searchEdges_eq (g : Digraph N E) (start : Nat) :
    searchEdges g start = some (g.searchEdges start) := by
  rw [searchEdges, events_eq]
  rfl

theorem postorder_eq (g : Digraph N E) (start : Nat) :
    postorder g start = some (g.postorder start) := by
  rw [postorder, events_eq]
  rfl

theorem reachableFrom_eq (g : Digraph N E) (start : Nat) :
    reachableFrom g start = some (g.reachableFrom start) := by
  have below : ∀ n ∈ g.postorder start, n < g.nodeCount := fun n hn =>
    (Digraph.mem_postorder_iff.1 hn).1
  rw [reachableFrom, postorder_eq]
  change (BitSet.ofList g.nodeCount (g.postorder start)).toOption = _
  rw [BitSet.ofList_eq_ok below]
  rfl

theorem closeBackwards_eq {reached : BitSet} {work : List Nat} (size : reached.size = g.nodeCount)
    (inside : ∀ n ∈ work, n < g.nodeCount) :
    closeBackwards g reached work = some (g.closeBackwards reached work) := by
  induction reached, work using Digraph.closeBackwards.induct g with
  | case1 reached => rw [closeBackwards, Digraph.closeBackwards]
  | case2 reached n rest new ih =>
    obtain ⟨lt, inside⟩ := List.forall_mem_cons.1 inside
    have before : ∀ k ∈ g.predecessors n, k < g.nodeCount := fun k hk =>
      (Digraph.step_iff_mem_predecessors.2 hk).source_lt
    rw [closeBackwards, Digraph.closeBackwards_step, if_pos (size ▸ lt), dif_pos new, if_pos new,
      predecessors_eq lt]
    exact ih ((BitSet.size_add reached n).trans size) (List.forall_mem_append.2 ⟨before, inside⟩)
  | case3 reached n rest old ih =>
    obtain ⟨lt, inside⟩ := List.forall_mem_cons.1 inside
    rw [closeBackwards, Digraph.closeBackwards_step, if_pos (size ▸ lt), dif_neg old, if_neg old]
    exact ih size inside

theorem reachingTo_eq (g : Digraph N E) (target : Nat) :
    reachingTo g target = some (g.reachingTo target) := by
  rw [reachingTo, Digraph.reachingTo]
  split
  next lt => exact closeBackwards_eq rfl (List.forall_mem_singleton.2 lt)
  next out =>
    have old : ¬ (BitSet.empty g.nodeCount).lacks target = true := fun new =>
      out (BitSet.lacks_iff.1 new).1
    rw [Digraph.closeBackwards_step, if_neg old, Digraph.closeBackwards]

end Digraph

section FlowGraph

variable (g : FlowGraph) (d : Direction)

/-- A number whose flag can be read. -/
def flagged (s : BitSet) (n : Nat) : Option Nat := if n < s.size then some n else none

def sources (n : Nat) : Option (List Nat) :=
  match d with
  | .forward => predecessors g.graph n
  | .backward => successors g.graph n

def participants : Option BitSet :=
  match d with
  | .forward => reachableFrom g.graph g.entry
  | .backward => reachingTo g.graph g.exit

def walk : Option (List Nat) :=
  match d with
  | .forward => List.reverse <$> postorder g.graph g.entry
  | .backward => postorder g.graph g.entry

/-- The visiting order, for which the flag of every node is read. -/
def visitOrder : Option (List Nat) := do
  let present ← participants g d
  let nodes ← ((← walk g d) ++ g.nodeIds).mapM (flagged present)
  return (nodes.filter (· ∈ present)).eraseDups

def idleNodes : Option (List Nat) := do
  let present ← participants g d
  return (← g.nodeIds.mapM (flagged present)).filter (· ∉ present)

def edges : Option (List (Label × Label)) := do
  return (← searchEdges g.graph g.entry).filterMap fun (s, t) =>
    return (← g.label? s, ← g.label? t)

variable {g d}

theorem mapM_flagged {s : BitSet} {ns : List Nat} (below : ∀ n ∈ ns, n < s.size) :
    ns.mapM (flagged s) = some ns := by
  have read : ∀ n ∈ ns, flagged s n = some (id n) := fun n hn => if_pos (below n hn)
  rw [mapM_eq_pure read, List.map_id]
  rfl

theorem sources_eq {n : Nat} (lt : n < g.nodeCount) : sources g d n = some (g.sources d n) := by
  cases d with
  | forward => exact predecessors_eq lt
  | backward => exact successors_eq lt

theorem participants_eq (g : FlowGraph) (d : Direction) :
    participants g d = some (g.participants d) := by
  cases d with
  | forward => exact reachableFrom_eq g.graph g.entry
  | backward => exact reachingTo_eq g.graph g.exit

theorem walk_eq (g : FlowGraph) (d : Direction) : walk g d = some (g.walk d) := by
  have order := postorder_eq g.graph g.entry
  cases d with
  | forward => exact congrArg (List.reverse <$> ·) order
  | backward => exact order

theorem visitOrder_eq (g : FlowGraph) (d : Direction) :
    visitOrder g d = some (g.visitOrder d) := by
  have finished : ∀ n ∈ g.postorder, n < g.nodeCount := fun n hn =>
    (Digraph.mem_postorder_iff.1 hn).1
  have below : ∀ n ∈ g.walk d ++ g.nodeIds, n < (g.participants d).size := by
    intro n hn
    rw [FlowGraph.size_participants]
    cases List.mem_append.1 hn with
    | inl hn =>
      cases d with
      | forward => exact finished n (List.mem_reverse.1 hn)
      | backward => exact finished n hn
    | inr hn => exact FlowGraph.mem_nodeIds.1 hn
  rw [visitOrder, participants_eq, walk_eq]
  change (do
    let nodes ← (g.walk d ++ g.nodeIds).mapM (flagged (g.participants d))
    return (nodes.filter (· ∈ g.participants d)).eraseDups) = _
  rw [mapM_flagged below]
  rfl

theorem idleNodes_eq (g : FlowGraph) (d : Direction) :
    idleNodes g d = some (g.idleNodes d) := by
  have below : ∀ n ∈ g.nodeIds, n < (g.participants d).size := fun n hn =>
    FlowGraph.size_participants ▸ FlowGraph.mem_nodeIds.1 hn
  rw [idleNodes, participants_eq]
  change (do
    let nodes ← g.nodeIds.mapM (flagged (g.participants d))
    return nodes.filter (· ∉ g.participants d)) = _
  rw [mapM_flagged below]
  rfl

theorem edges_eq (g : FlowGraph) : edges g = some g.edges := by
  rw [edges, searchEdges_eq]
  rfl

end FlowGraph

end Checked
end FlowAnalysis
