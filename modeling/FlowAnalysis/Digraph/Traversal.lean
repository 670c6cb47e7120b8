import FlowAnalysis.Digraph.Indexed
import FlowAnalysis.Digraph.Search

/-!
Traversals of graphs with numbered edges, as loops over a stack and an array with a flag for each
node. There is an outcome if every list, edge and flag is found that a loop looks up.
-/
namespace FlowAnalysis.IndexedGraph

variable {N E : Type}

/-- No node is flagged. -/
def noFlags (g : IndexedGraph N E) : Array Bool := Array.replicate g.nodeCount false

/-- Set the flag of a node. -/
def flag (flags : Array Bool) (n : Nat) : Option (Array Bool) :=
  if _ : n < flags.size then some (flags.set n true) else none

/-- Setting a flag leaves fewer to be set. -/
theorem count_set_lt {flags : Array Bool} {n : Nat} (h : flags[n]? = some false) :
    (flags.setIfInBounds n true).count false < flags.count false := by
  obtain ⟨lt, unset⟩ := Array.getElem?_eq_some_iff.1 h
  have some : 0 < flags.count false := Array.count_pos_iff.2 (unset ▸ Array.getElem_mem lt)
  rw [Array.setIfInBounds_def, dif_pos lt, Array.count_set lt, unset]
  change flags.count false - 1 + 0 < flags.count false
  omega

/-- Steps at the stack that flag no node. -/
def load (g : IndexedGraph N E) (stack : List (Nat × Nat)) : Nat :=
  stack.foldr (fun (n, next) k => ((g.successors n).getD []).length - next + 1 + k) 0

theorem load_cons (g : IndexedGraph N E) {n next : Nat} {ms : List Nat} {rest : List (Nat × Nat)}
    (found : g.successors n = some ms) :
    g.load ((n, next) :: rest) = ms.length - next + 1 + g.load rest := by
  simp [load, found]

/-- The events of a search that has flagged some nodes. On the stack are the nodes under search,
each with the place of the successor that it looks at next. -/
def searchFrom (g : IndexedGraph N E) (seen : Array Bool) (stack : List (Nat × Nat)) :
    Option (List Digraph.Event) :=
  match stack with
  | [] => some []
  | (n, next) :: rest =>
    match _ : g.successors n with
    | none => none
    | some ms =>
      match _ : ms[next]? with
      | none => do return .finish n :: (← g.searchFrom seen rest)
      | some m =>
        match _ : seen[m]? with
        | none => none
        | some true => do return .edge n m :: (← g.searchFrom seen ((n, next + 1) :: rest))
        | some false => do
          let seen := seen.setIfInBounds m true
          return .edge n m :: (← g.searchFrom seen ((m, 0) :: (n, next + 1) :: rest))
termination_by (seen.count false, g.load stack)
decreasing_by
  · exact Prod.Lex.right _ (by rw [load_cons g ‹_›]; omega)
  · obtain ⟨lt, -⟩ := List.getElem?_eq_some_iff.1 ‹ms[next]? = some m›
    exact Prod.Lex.right _ (by rw [load_cons g ‹_›, load_cons g ‹_›]; omega)
  · exact Prod.Lex.left _ _ (count_set_lt ‹_›)

section searchFrom

variable {g : IndexedGraph N E} {seen : Array Bool} {n m next : Nat} {ms : List Nat}
  {rest : List (Nat × Nat)}

theorem searchFrom_finish (found : g.successors n = some ms) (last : ms[next]? = none) :
    g.searchFrom seen ((n, next) :: rest) =
      do return .finish n :: (← g.searchFrom seen rest) := by
  rw [searchFrom]
  grind

theorem searchFrom_skip (found : g.successors n = some ms) (target : ms[next]? = some m)
    (old : seen[m]? = some true) : g.searchFrom seen ((n, next) :: rest) =
      do return .edge n m :: (← g.searchFrom seen ((n, next + 1) :: rest)) := by
  rw [searchFrom]
  grind

theorem searchFrom_enter (found : g.successors n = some ms) (target : ms[next]? = some m)
    (new : seen[m]? = some false) : g.searchFrom seen ((n, next) :: rest) =
      do return .edge n m :: (←
        g.searchFrom (seen.setIfInBounds m true) ((m, 0) :: (n, next + 1) :: rest)) := by
  rw [searchFrom]
  grind

end searchFrom

def events (g : IndexedGraph N E) (start : Nat) : Option (List Digraph.Event) :=
  if start < g.nodeCount then do g.searchFrom (← flag g.noFlags start) [(start, 0)]
  else some []

def postorder (g : IndexedGraph N E) (start : Nat) : Option (List Nat) := do
  return (← g.events start).filterMap fun
    | .edge _ _ => none
    | .finish n => some n

/-- Flags of the nodes that a search from `start` finishes. -/
def reachableFrom (g : IndexedGraph N E) (start : Nat) : Option (Array Bool) := do
  (← g.postorder start).foldlM flag g.noFlags

/-- A node that has no flag yet gets one and goes on the stack. -/
def mark (state : Array Bool × List Nat) (n : Nat) : Option (Array Bool × List Nat) :=
  match state.1[n]? with
  | none => none
  | some true => some state
  | some false => some (state.1.setIfInBounds n true, n :: state.2)

/-- What goes on the stack leaves fewer flags to be set. -/
theorem le_of_mark {state state' : Array Bool × List Nat} {n : Nat}
    (marked : mark state n = some state') :
    state'.1.count false + state'.2.length ≤ state.1.count false + state.2.length := by
  unfold mark at marked
  split at marked
  · cases marked
  · cases marked
    exact Nat.le_refl _
  next unset =>
    have less := count_set_lt unset
    cases marked
    simp only [List.length_cons]
    omega

theorem le_of_foldlM_mark {state state' : Array Bool × List Nat} {ns : List Nat}
    (marked : ns.foldlM mark state = some state') :
    state'.1.count false + state'.2.length ≤ state.1.count false + state.2.length := by
  induction ns generalizing state with
  | nil =>
    cases marked
    exact Nat.le_refl _
  | cons n ns ih =>
    rw [List.foldlM_cons] at marked
    obtain ⟨between, first, rest⟩ := Option.bind_eq_some_iff.1 marked
    exact Nat.le_trans (ih rest) (le_of_mark first)

/-- The flags after all that leads to the nodes on the stack is marked. -/
def markBackwards (g : IndexedGraph N E) (reached : Array Bool) (stack : List Nat) :
    Option (Array Bool) :=
  match stack with
  | [] => some reached
  | n :: rest =>
    match g.predecessors n with
    | none => none
    | some ns =>
      match _ : ns.foldlM mark (reached, rest) with
      | none => none
      | some (reached, stack) => g.markBackwards reached stack
termination_by reached.count false + stack.length
decreasing_by
  exact Nat.lt_of_le_of_lt (le_of_foldlM_mark ‹_›) (Nat.lt_succ_self _)

theorem markBackwards_cons {g : IndexedGraph N E} {reached reached' : Array Bool} {n : Nat}
    {ns stack stack' : List Nat} (found : g.predecessors n = some ns)
    (marked : ns.foldlM mark (reached, stack) = some (reached', stack')) :
    g.markBackwards reached (n :: stack) = g.markBackwards reached' stack' := by
  rw [markBackwards, found]
  grind

/-- Flags of the nodes from which `target` can be reached. -/
def reachingTo (g : IndexedGraph N E) (target : Nat) : Option (Array Bool) :=
  if target < g.nodeCount then do g.markBackwards (← flag g.noFlags target) [target]
  else some g.noFlags

end FlowAnalysis.IndexedGraph
