import FlowAnalysis.Proofs.Confluence.Order
import FlowAnalysis.Proofs.Framework.Progress

/-!
Gen/kill problems as frameworks. Main statement: a pass of a solver does what a pass of the iteration
of its framework does, faults included.
-/
namespace FlowAnalysis

theorem foldlM_of_ok {α β γ : Type} {f : γ → β → Except Fault γ} {get : α → Except Fault β}
    {value : α → β} {as : List α} (each : ∀ a ∈ as, get a = .ok (value a)) {c : γ} :
    as.foldlM (fun c a => do f c (← get a)) c = (as.map value).foldlM f c := by
  induction as generalizing c with
  | nil => rfl
  | cons a as ih =>
    rw [List.foldlM_cons, List.map_cons, List.foldlM_cons, each a List.mem_cons_self]
    exact bind_congr fun c => ih fun a mem => each a (List.mem_cons_of_mem _ mem)

theorem mapM_eq_map {α β γ : Type} {f : α → Except Fault γ} {f' : α → Except Fault β} {h : β → γ}
    {as : List α} (each : ∀ a ∈ as, f a = h <$> f' a) : as.mapM f = List.map h <$> as.mapM f' := by
  induction as with
  | nil => rfl
  | cons a as ih =>
    rw [List.mapM_cons, List.mapM_cons, each a List.mem_cons_self,
      ih fun a mem => each a (List.mem_cons_of_mem _ mem), bind_map_left, map_bind]
    refine bind_congr fun b => ?_
    rw [bind_map_left, map_bind]
    rfl

theorem BitSet.exists_eq_ofBits {s : BitSet} {n : Nat} (h : s.size = n) :
    ∃ x : BitVec n, s = .ofBits x := by
  obtain ⟨m, x⟩ := s
  cases h
  exact ⟨x, rfl⟩

theorem Confluence.exists_meet_ok {c : Confluence} {s t : BitSet} (h : t.size = s.size) :
    ∃ r, c.meet s t = .ok r ∧ r.size = s.size := by
  obtain ⟨n, x⟩ := s
  obtain ⟨m, y⟩ := t
  cases h
  exact ⟨_, meet_ofBits c x y, rfl⟩

namespace GenKill

def framework (p : GenKill) : Framework BitSet where
  direction := p.direction
  boundary := fun _ => .ofBits p.boundary
  initial := fun _ => .ofBits p.initial
  meet := p.confluence.meet
  transfer := fun _ n _ s => (fun x => .ofBits (p.transfer n x)) <$> s.within p.size

/-- The framework of a problem has values on the sets of its universe. -/
theorem closed_framework (p : GenKill) (g : FlowGraph) :
    p.framework.Closed g (fun s => s.size = p.size) where
  boundary := rfl
  initial := rfl
  meet := fun s t hs ht => by
    obtain ⟨r, met, size⟩ := Confluence.exists_meet_ok (c := p.confluence) (ht.trans hs.symm)
    exact ⟨r, met, size.trans hs⟩
  transfer := fun n node s here hs => by
    obtain ⟨x, rfl⟩ := BitSet.exists_eq_ofBits hs
    refine ⟨.ofBits (p.transfer n x), ?_, rfl⟩
    change _ <$> BitSet.within _ _ = _
    rw [BitSet.within_ofBits]
    rfl

section FlowIn

variable (p : GenKill) {γ : Type} {close : Option BitSet → Except Fault γ}
  (strict : ∀ s : BitSet, s.size ≠ p.size → close (some s) = .error .universeMismatch)
include strict

/-- What flows in with a set of another universe is of another universe, if it is anything. -/
theorem foldlM_flowIn_of_ne {s : BitSet} (h : s.size ≠ p.size) (ts : List BitSet) :
    ts.foldlM p.framework.flowIn (some s) >>= close = .error .universeMismatch := by
  induction ts generalizing s with
  | nil => exact strict s h
  | cons t ts ih =>
    rw [List.foldlM_cons]
    by_cases same : t.size = s.size
    · obtain ⟨r, met, size⟩ := Confluence.exists_meet_ok (c := p.confluence) same
      have next : p.framework.flowIn (some s) t = .ok (some r) := congrArg (some <$> ·) met
      rw [next]
      exact ih (size ▸ h)
    · have next : p.framework.flowIn (some s) t = .error .universeMismatch :=
        congrArg (some <$> ·) (Confluence.meet_of_ne (c := p.confluence) same)
      rw [next]
      rfl

/-- The meet of `x`, if there is one, and `xs`, if there are any. -/
def meetOf? (x : Option (BitVec p.size)) (xs : List (BitVec p.size)) : Option (BitVec p.size) :=
  match x.toList ++ xs with
  | [] => none
  | x :: xs => some (p.meetAll x xs)

theorem foldlM_flowIn (start : Option (BitVec p.size)) (ss : List BitSet) :
    ss.foldlM p.framework.flowIn (start.map BitSet.ofBits) >>= close =
      ss.mapM (·.within p.size) >>= fun xs => close ((p.meetOf? start xs).map BitSet.ofBits) := by
  induction ss generalizing start with
  | nil => cases start <;> rfl
  | cons s ss ih =>
    rw [List.foldlM_cons, List.mapM_cons, bind_assoc]
    by_cases native : s.size = p.size
    · obtain ⟨x, rfl⟩ := BitSet.exists_eq_ofBits native
      rw [BitSet.within_ofBits]
      -- A set of the universe goes into the meet on both sides.
      cases start with
      | none =>
        refine (ih (some x)).trans ?_
        change _ = (ss.mapM _ >>= fun xs => pure (x :: xs)) >>= _
        rw [bind_assoc]
        rfl
      | some x₀ =>
        have next : p.framework.flowIn (some (.ofBits x₀)) (.ofBits x) =
            .ok (some (.ofBits (p.confluence.meetBits x₀ x))) :=
          congrArg (some <$> ·) (Confluence.meet_ofBits p.confluence x₀ x)
        rw [Option.map_some, next]
        refine (ih (some (p.confluence.meetBits x₀ x))).trans ?_
        change _ = (ss.mapM _ >>= fun xs => pure (x :: xs)) >>= _
        rw [bind_assoc]
        rfl
    · rw [BitSet.within_of_ne native]
      cases start with
      | none => exact foldlM_flowIn_of_ne p strict native ss
      | some x₀ =>
        have next : p.framework.flowIn (some (.ofBits x₀)) s = .error .universeMismatch :=
          congrArg (some <$> ·) (Confluence.meet_of_ne (c := p.confluence) native)
        rw [Option.map_some, next]
        rfl

end FlowIn

end GenKill

namespace Solver

/-- A solver as an iteration of the framework of its problem. -/
def iteration (s : Solver) : Iteration BitSet where
  framework := s.problem.framework
  flow := s.flow
  strategy := s.strategy
  order := s.order.filterMap fun n => (n, ·) <$> s.flow.node? n
  sources := (s.flow.nodeIds.map (s.flow.sources s.problem.direction)).toArray
  boundary := .ofBits s.problem.boundary
  before := s.cells.map (·.before)
  after := s.cells.map (·.after)
  passes := s.passes
  warnings := s.warnings

/-- The solver `s` with other states. -/
def withCells (s : Solver) (cells : Array Cell) : Solver := { s with cells := cells }

section Evaluate

variable {s : Solver} (size : s.cells.size = s.flow.nodeCount) {n : Nat}
  (lt : n < s.flow.nodeCount)
include size lt

theorem getElem?_cells : s.cells[n]? = some (Cell.read s.cells n) := by
  rw [Cell.read, Array.getD_eq_getD_getElem?, Array.getElem?_eq_getElem (size.symm ▸ lt)]
  rfl

theorem read_before : Iteration.read s.iteration.before n = .ok (Cell.read s.cells n).before := by
  rw [Iteration.read_eq_ok_iff, iteration, Array.getElem?_map, getElem?_cells size lt]
  rfl

theorem read_after : Iteration.read s.iteration.after n = .ok (Cell.read s.cells n).after := by
  rw [Iteration.read_eq_ok_iff, iteration, Array.getElem?_map, getElem?_cells size lt]
  rfl

theorem gather_iteration : s.iteration.gather n =
    ((s.flow.sources s.problem.direction n).map fun m => (Cell.read s.cells m).after).foldlM
      s.problem.framework.flowIn ((if n = s.flow.boundaryNode s.problem.direction then
        some s.problem.boundary else none).map BitSet.ofBits) := by
  have sources : Iteration.read s.iteration.sources n =
      .ok (s.flow.sources s.problem.direction n) := Iteration.read_sources lt
  have start : (if n = s.flow.boundaryNode s.problem.direction then
      some (BitSet.ofBits s.problem.boundary) else none) =
        (if n = s.flow.boundaryNode s.problem.direction then
          some s.problem.boundary else none).map BitSet.ofBits := by
    split <;> rfl
  rw [Iteration.gather, sources, ← start]
  exact foldlM_of_ok fun m feeds => read_after size (FlowGraph.Feeds.lt feeds).1

theorem evaluate_iteration (node : Node) : s.iteration.evaluate n node =
    (fun c => (c.before, c.after)) <$> s.problem.evaluate s.flow s.cells n := by
  let finish (x : BitSet) : Except Fault (BitSet × BitSet) := do
    return (x, ← s.problem.framework.transfer s.flow n node x)
  let close (input : Option BitSet) : Except Fault (BitSet × BitSet) :=
    match input with
    | some x => finish x
    | none => Iteration.read s.iteration.before n >>= finish
  have native (x : BitVec s.problem.size) :
      finish (.ofBits x) = .ok (.ofBits x, .ofBits (s.problem.transfer n x)) := by
    change (_ <$> BitSet.within _ _ >>= _) = _
    rw [BitSet.within_ofBits]
    rfl
  have foreign (x : BitSet) (h : x.size ≠ s.problem.size) :
      finish x = .error .universeMismatch := by
    change (_ <$> BitSet.within _ _ >>= _) = _
    rw [BitSet.within_of_ne h]
    rfl
  have split : s.iteration.evaluate n node = s.iteration.gather n >>= close :=
    bind_congr fun input => by cases input <;> rfl
  rw [split, gather_iteration size lt, s.problem.foldlM_flowIn foreign, List.mapM_map]
  rw [GenKill.evaluate, map_bind]
  refine bind_congr fun xs => ?_
  unfold GenKill.inflow
  by_cases here : n = s.flow.boundaryNode s.problem.direction
  · rw [if_pos here, if_pos here]
    exact native (s.problem.meetAll s.problem.boundary xs)
  · rw [if_neg here, if_neg here]
    cases xs with
    | cons x xs => exact native (s.problem.meetAll x xs)
    | nil =>
      change Iteration.read s.iteration.before n >>= finish = _
      rw [read_before size lt]
      by_cases same : (Cell.read s.cells n).before.size = s.problem.size
      · obtain ⟨x, there⟩ := BitSet.exists_eq_ofBits same
        rw [there, BitSet.within_ofBits]
        exact native x
      · rw [BitSet.within_of_ne same]
        exact foreign _ same

/-- To store new states in the arrays is to record them in the cells. -/
theorem store_iteration (c : Cell) : s.iteration.store n c.before c.after =
    .ok ((s.withCells (s.cells.setIfInBounds n c)).iteration, Cell.read s.cells n != c) := by
  have flag : (Cell.read s.cells n != c) = ((Cell.read s.cells n).before != c.before ||
      (Cell.read s.cells n).after != c.after) := by
    obtain ⟨x, y⟩ := c
    obtain ⟨x', y'⟩ := Cell.read s.cells n
    rw [Bool.eq_iff_iff]
    simp only [bne_iff_ne, ne_eq, Cell.mk.injEq, Bool.or_eq_true]
    exact Classical.not_and_iff_not_or_not
  rw [flag]
  refine Iteration.store_eq_ok_iff.2 ⟨_, _, Iteration.read_eq_ok_iff.1 (read_before size lt),
    Iteration.read_eq_ok_iff.1 (read_after size lt), ?_, rfl⟩
  simp only [iteration, withCells, Array.map_setIfInBounds]
  rfl

end Evaluate

section Passes

variable {s : Solver} {α : Type}

/-- Steps that record what they evaluate are steps that store it. -/
theorem forEach_iteration {as : List α} {key : α → Nat} (ev : Array Cell → α → Except Fault Cell)
    (step : Iteration BitSet → α → Except Fault (Iteration BitSet × Bool))
    (valid : ∀ a ∈ as, key a < s.flow.nodeCount)
    (each : ∀ cells : Array Cell, cells.size = s.flow.nodeCount → ∀ a ∈ as,
      step (s.withCells cells).iteration a = do
        let c ← ev cells a
        (s.withCells cells).iteration.store (key a) c.before c.after)
    {cells : Array Cell} (size : cells.size = s.flow.nodeCount) (flag : Bool) :
    (as.foldlM (fun (t, changed) a => do
      let (t, now) ← step t a
      return (t, changed || now)) ((s.withCells cells).iteration, flag) : Except Fault _) =
    Prod.map (fun cells => (s.withCells cells).iteration) id <$>
      as.foldlM (fun acc a => do return Cell.record acc (key a) (← ev acc.1 a)) (cells, flag) := by
  induction as generalizing cells flag with
  | nil => rfl
  | cons a as ih =>
    obtain ⟨lt, valid⟩ := List.forall_mem_cons.1 valid
    have here := each cells size a List.mem_cons_self
    rw [List.foldlM_cons, List.foldlM_cons]
    dsimp only
    rw [here, bind_assoc, bind_assoc, bind_assoc, map_bind]
    refine bind_congr fun c => ?_
    rw [store_iteration (s := s.withCells cells) size lt, pure_bind]
    refine ih valid (fun cells size a mem => each cells size a (List.mem_cons_of_mem _ mem)) ?_ _
    exact Array.size_setIfInBounds.trans size

variable (size : s.cells.size = s.flow.nodeCount) (valid : ∀ n ∈ s.order, n < s.flow.nodeCount)
include size valid

omit size in
theorem map_fst_order : s.iteration.order.map Prod.fst = s.order :=
  FlowGraph.map_fst_filterMap_node? valid

omit size in
theorem lt_of_mem_order {e : Nat × Node} (mem : e ∈ s.iteration.order) : e.1 < s.flow.nodeCount :=
  valid e.1 (map_fst_order valid ▸ List.mem_map_of_mem mem)

theorem gaussSeidelPass_iteration : s.iteration.gaussSeidelPass =
    Prod.map (fun cells => (s.withCells cells).iteration) id <$>
      s.problem.gaussSeidelPass s.flow s.order s.cells := by
  rw [Iteration.gaussSeidelPass, Iteration.forEach, GenKill.gaussSeidelPass,
    ← map_fst_order valid, List.foldlM_map]
  have listed (e : Nat × Node) : e ∈ s.iteration.order → _ := lt_of_mem_order valid
  refine forEach_iteration (s := s) (fun cells e => s.problem.evaluate s.flow cells e.1)
    Iteration.visit listed (fun cells size e mem => ?_) size false
  rw [Iteration.visit, evaluate_iteration (s := s.withCells cells) size (listed e mem),
    bind_map_left]
  rfl

theorem jacobiPass_iteration : s.iteration.jacobiPass =
    Prod.map (fun cells => (s.withCells cells).iteration) id <$>
      s.problem.jacobiPass s.flow s.order s.cells := by
  let update (e : Nat × Node) : Except Fault (Nat × Cell) := do
    return (e.1, ← s.problem.evaluate s.flow s.cells e.1)
  let states (u : Nat × Cell) : Nat × BitSet × BitSet := (u.1, u.2.before, u.2.after)
  have updates : (s.iteration.order.mapM fun e => do return (e.1, ← s.iteration.evaluate e.1 e.2)) =
      List.map states <$> s.iteration.order.mapM update := by
    refine mapM_eq_map fun e mem => ?_
    rw [evaluate_iteration size (lt_of_mem_order valid mem), bind_map_left, map_bind]
    rfl
  have store (us : List (Nat × Cell)) (ran : s.iteration.order.mapM update = .ok us) :
      Iteration.forEach (fun s u => s.store u.1 u.2.1 u.2.2) (us.map states) s.iteration =
        .ok (Prod.map (fun cells => (s.withCells cells).iteration) id
          (us.foldl (fun acc u => Cell.record acc u.1 u.2) (s.cells, false))) := by
    have valid (u : Nat × BitSet × BitSet) (mem : u ∈ us.map states) : u.1 < s.flow.nodeCount := by
      obtain ⟨u', there, rfl⟩ := List.mem_map.1 mem
      obtain ⟨e, here, value⟩ := exists_mem_of_forall₂ (mapM_eq_ok_iff.1 ran).flip there
      obtain ⟨c, -, done⟩ := exists_of_bind_eq_ok value
      cases done
      exact lt_of_mem_order valid here
    refine (forEach_iteration (s := s) (fun _ u => pure ⟨u.2.1, u.2.2⟩)
      (fun s u => s.store u.1 u.2.1 u.2.2) valid (fun cells size u mem => rfl) size false).trans ?_
    rw [List.foldlM_map]
    simp only [pure_bind, List.foldlM_pure, map_pure]
    rfl
  rw [Iteration.jacobiPass, updates, GenKill.jacobiPass, ← map_fst_order valid, List.mapM_map,
    bind_map_left, map_bind]
  change s.iteration.order.mapM update >>= _ = s.iteration.order.mapM update >>= _
  cases ran : s.iteration.order.mapM update with
  | error fault => rfl
  | ok us => exact store us ran

theorem pass_iteration : s.iteration.pass = Prod.map iteration id <$> s.pass := by
  obtain ⟨flow, p, order, cells, strategy, passes⟩ := s
  cases strategy with
  | gaussSeidel =>
    change Iteration.gaussSeidelPass _ >>= _ =
      Prod.map iteration id <$> (p.gaussSeidelPass flow order cells >>= _)
    rw [gaussSeidelPass_iteration size valid, bind_map_left, map_bind]
    rfl
  | jacobi =>
    change Iteration.jacobiPass _ >>= _ =
      Prod.map iteration id <$> (p.jacobiPass flow order cells >>= _)
    rw [jacobiPass_iteration size valid, bind_map_left, map_bind]
    rfl

end Passes

end Solver
end FlowAnalysis
