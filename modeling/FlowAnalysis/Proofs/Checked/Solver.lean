import FlowAnalysis.Proofs.Checked.Graph
import FlowAnalysis.Proofs.Solver.Settling

/-!
Solvers with every access checked: they read and write tables of sources, states and sets within
their bounds, and combine sets of one universe, or they have no outcome. Main statement: a solver of
any graph has the outcome of the one that does not check, which comes to rest.
-/
namespace FlowAnalysis
namespace Checked

section Pass

variable (p : GenKill) (boundaryNode : Nat) (sources : Array (List Nat))

/-- The meet of all that flows into `n`, or the state that was there if nothing does. -/
def stateBefore (cells : Array Cell) (n : Nat) : Option BitSet := do
  let states ← (← sources[n]?).mapM fun m => Cell.after <$> cells[m]?
  match if n = boundaryNode then .ofBits p.boundary :: states else states with
  | [] => Cell.before <$> cells[n]?
  | x :: xs => xs.foldlM (fun s t => (p.confluence.meet s t).toOption) x

/-- What is left of a set after node `n` has killed, with what `n` generates. -/
def transfer (n : Nat) (s : BitSet) : Option BitSet := do
  let (kept, _) ← (s.diff (.ofBits (← p.kill[n]?))).toOption
  let (after, _) ← (kept.union (.ofBits (← p.gen[n]?))).toOption
  return after

def evaluate (cells : Array Cell) (n : Nat) : Option Cell := do
  let before ← stateBefore p boundaryNode sources cells n
  return ⟨before, ← transfer p n before⟩

/-- Put new states in the place of old ones. -/
def store (acc : Array Cell × Bool) (n : Nat) (c : Cell) : Option (Array Cell × Bool) := do
  let old ← acc.1[n]?
  return (acc.1.setIfInBounds n c, acc.2 || old != c)

def gaussSeidelPass (order : List Nat) (acc : Array Cell × Bool) : Option (Array Cell × Bool) :=
  order.foldlM (fun acc n => do store acc n (← evaluate p boundaryNode sources acc.1 n)) acc

def jacobiPass (order : List Nat) (cells : Array Cell) : Option (Array Cell × Bool) := do
  let updates ← order.mapM fun n => do return (n, ← evaluate p boundaryNode sources cells n)
  updates.foldlM (fun acc (n, c) => store acc n c) (cells, false)

end Pass

def pass (sources : Array (List Nat)) (s : Solver) : Option (Solver × Bool) := do
  let start := s.flow.boundaryNode s.problem.direction
  let (cells, changed) ← match s.strategy with
    | .gaussSeidel => gaussSeidelPass s.problem start sources s.order (s.cells, false)
    | .jacobi => jacobiPass s.problem start sources s.order s.cells
  return ({ s with cells := cells, passes := s.passes + 1 }, changed)

def runFor (sources : Array (List Nat)) (s : Solver) (fuel : Nat) : Option Solver :=
  match fuel with
  | 0 => none
  | fuel + 1 => do
    let (s, changed) ← pass sources s
    if changed then runFor sources s fuel else return s

/-- A solver with a table of the sources of all nodes, which warns of the nodes whose flag is not
set. -/
def solve (g : FlowGraph) (p : GenKill) (strategy : Strategy) : Option (Results BitSet) := do
  let order ← visitOrder g p.direction
  let idle ← idleNodes g p.direction
  let sources ← g.nodeIds.mapM (sources g p.direction)
  let start : Solver := ⟨g, p, order, Solver.initialCells g p, strategy, 0⟩
  let rest ← runFor sources.toArray start start.limit
  return { rest.results with warnings := idle.filterMap fun n => .unreachable <$> g.label? n }

section Evaluate

variable {p : GenKill} {g : FlowGraph} {sources : Array (List Nat)} {u v : Valuation p.size}
  {order : List Nat} {n : Nat}

theorem foldlM_meet {size : Nat} (c : Confluence) (x : BitVec size) (xs : List (BitVec size)) :
    (xs.map BitSet.ofBits).foldlM (fun s t => (c.meet s t).toOption) (.ofBits x) =
      some (.ofBits (xs.foldl c.meetBits x)) := by
  induction xs generalizing x with
  | nil => rfl
  | cons y ys ih =>
    rw [List.map_cons, List.foldlM_cons, Confluence.meet_ofBits]
    exact ih (c.meetBits x y)

theorem store_eq {acc : Array Cell × Bool} {c : Cell} (lt : n < acc.1.size) :
    store acc n c = some (Cell.record acc n c) := by
  have old : Cell.read acc.1 n = acc.1[n] := by
    rw [Cell.read, Array.getD_eq_getD_getElem?, Array.getElem?_eq_getElem lt]
    rfl
  rw [store, Array.getElem?_eq_getElem lt, Cell.record, old]
  rfl

theorem foldlM_store {acc : Array Cell × Bool} {updates : List (Nat × Cell)}
    (valid : ∀ x ∈ updates, x.1 < acc.1.size) :
    updates.foldlM (fun acc (n, c) => store acc n c) acc =
      some (updates.foldl (fun acc (n, c) => Cell.record acc n c) acc) := by
  induction updates generalizing acc with
  | nil => rfl
  | cons x updates ih =>
    obtain ⟨n, c⟩ := x
    obtain ⟨lt, valid⟩ := List.forall_mem_cons.1 valid
    rw [List.foldlM_cons]
    change (store acc n c >>= _) = _
    rw [store_eq lt]
    exact ih fun y hy => by simpa [Cell.record] using valid y hy

/-- The tables that a solver reads have an entry for each node of its graph. -/
structure Tables (p : GenKill) (g : FlowGraph) (sources : Array (List Nat)) : Prop where
  gen : p.gen.size = g.nodeCount
  kill : p.kill.size = g.nodeCount
  sources : ∀ n < g.nodeCount, sources[n]? = some (g.sources p.direction n)

section Tables

variable (tables : Tables p g sources)
include tables

theorem stateBefore_cells (lt : n < g.nodeCount) :
    stateBefore p (g.boundaryNode p.direction) sources (v.cells g.nodeCount) n =
      some (.ofBits (p.inState g v n)) := by
  have cell : ∀ m < g.nodeCount, (v.cells g.nodeCount)[m]? = some (v.cell m) := by
    intro m hm
    rw [Valuation.cells, Array.getElem?_ofFn, dif_pos hm]
  have states : (g.sources p.direction n).mapM
      (fun m => Cell.after <$> (v.cells g.nodeCount)[m]?) =
        some (((g.sources p.direction n).map v.after).map BitSet.ofBits) := by
    rw [List.map_map]
    apply mapM_eq_pure
    intro m hm
    have feeds : g.Feeds p.direction m n := hm
    rw [cell m feeds.lt.1]
    rfl
  have inflow : (if n = g.boundaryNode p.direction then
      .ofBits p.boundary :: ((g.sources p.direction n).map v.after).map BitSet.ofBits
      else ((g.sources p.direction n).map v.after).map BitSet.ofBits) =
        (p.inflow g n ((g.sources p.direction n).map v.after)).map BitSet.ofBits := by
    unfold GenKill.inflow
    split <;> rfl
  rw [stateBefore, tables.sources n lt]
  simp only [bind, Option.bind, states, inflow, cell n lt, GenKill.inState]
  cases p.inflow g n ((g.sources p.direction n).map v.after) with
  | nil => rfl
  | cons x xs => exact foldlM_meet p.confluence x xs

theorem transfer_ofBits (lt : n < g.nodeCount) (x : BitVec p.size) :
    transfer p n (.ofBits x) = some (.ofBits (p.transfer n x)) := by
  have kill := Array.getElem?_eq_getElem (tables.kill.symm ▸ lt)
  have gen := Array.getElem?_eq_getElem (tables.gen.symm ▸ lt)
  rw [transfer, kill, gen]
  simp [GenKill.transfer, Array.getD_eq_getD_getElem?, kill, gen, Except.toOption]

/-- The evaluation of a node of the graph finds all that it reads. -/
theorem evaluate_cells (lt : n < g.nodeCount) :
    evaluate p (g.boundaryNode p.direction) sources (v.cells g.nodeCount) n =
      some ((p.image g v).cell n) := by
  rw [evaluate, stateBefore_cells tables lt]
  change (do return (⟨_, ← transfer p n (.ofBits (p.inState g v n))⟩ : Cell)) = _
  rw [transfer_ofBits tables lt]
  rfl

theorem gaussSeidelPass_cells (u : Valuation p.size) (changed : Bool)
    (valid : ∀ n ∈ order, n < g.nodeCount) :
    gaussSeidelPass p (g.boundaryNode p.direction) sources order (u.cells g.nodeCount, changed) =
      (order.foldlM (fun (acc : Array Cell × Bool) n => do
        return Cell.record acc n (← p.evaluate g acc.1 n))
        (u.cells g.nodeCount, changed)).toOption := by
  unfold gaussSeidelPass
  induction order generalizing u changed with
  | nil => rfl
  | cons n order ih =>
    obtain ⟨lt, valid⟩ := List.forall_mem_cons.1 valid
    have inside : n < (u.cells g.nodeCount).size := by simpa [Valuation.cells] using lt
    have next := ih (u.patch n (p.image g u)) (changed || u.cell n != (p.image g u).cell n) valid
    rw [List.foldlM_cons, List.foldlM_cons, evaluate_cells tables lt, GenKill.evaluate_cells lt]
    rw [← Valuation.record_cells lt] at next
    refine Eq.trans ?_ next
    change (store _ n _ >>= _) = _
    rw [store_eq inside]
    rfl

theorem jacobiPass_cells (valid : ∀ n ∈ order, n < g.nodeCount) :
    jacobiPass p (g.boundaryNode p.direction) sources order (v.cells g.nodeCount) =
      (p.jacobiPass g order (v.cells g.nodeCount)).toOption := by
  have checked : (order.mapM fun n => do
      return (n, ← evaluate p (g.boundaryNode p.direction) sources (v.cells g.nodeCount) n)) =
        some (order.map fun n => (n, (p.image g v).cell n)) := by
    apply mapM_eq_pure
    intro n hn
    rw [evaluate_cells tables (valid n hn)]
    rfl
  have updates : (order.mapM fun n => do return (n, ← p.evaluate g (v.cells g.nodeCount) n)) =
      Except.ok (order.map fun n => (n, (p.image g v).cell n)) := by
    apply mapM_eq_pure
    intro n hn
    rw [GenKill.evaluate_cells (valid n hn)]
    rfl
  rw [jacobiPass, checked, GenKill.jacobiPass, updates]
  refine foldlM_store fun x hx => ?_
  obtain ⟨n, hn, rfl⟩ := List.mem_map.1 hx
  simpa [Valuation.cells] using valid n hn

end Tables

end Evaluate

section Solver

variable {s : Solver} {sources : Array (List Nat)} (ready : s.Ready)
  (tables : Tables s.problem s.flow sources)
include ready tables

theorem pass_reached (v : Valuation s.problem.size) (k : Nat) :
    pass sources (s.reached v k) =
      some (s.reached (s.problem.sweep s.flow s.strategy s.order v) (k + 1),
        GenKill.differs s.order v (s.problem.sweep s.flow s.strategy s.order v)) := by
  obtain ⟨flow, p, order, cells, strategy, passes⟩ := s
  cases strategy with
  | gaussSeidel =>
    have cells := (gaussSeidelPass_cells tables v false ready.valid).trans
      (congrArg Except.toOption (GenKill.gaussSeidelPass_cells ready.valid ready.nodup))
    simp only [pass, Solver.reached, cells]
    rfl
  | jacobi =>
    have cells := (jacobiPass_cells (v := v) tables ready.valid).trans
      (congrArg Except.toOption (GenKill.jacobiPass_cells ready.valid ready.nodup))
    simp only [pass, Solver.reached, cells]
    rfl

/-- A run goes from valuation to valuation and finds all that it reads. -/
theorem runFor_reached (v : Valuation s.problem.size) (k : Nat) {t : Solver} {fuel : Nat}
    (run : (s.reached v k).runFor fuel = .ok t) :
    runFor sources (s.reached v k) fuel = some t ∧ ∃ w l, t = s.reached w l := by
  induction fuel generalizing v k with
  | zero => cases run
  | succ fuel ih =>
    rw [Solver.runFor, Solver.pass_reached ready] at run
    rw [runFor, pass_reached ready tables]
    simp only [bind, Except.bind, Option.bind] at run ⊢
    split
    next changed =>
      rw [if_pos changed] at run
      exact ih _ _ run
    next quiet =>
      rw [if_neg quiet] at run
      cases run
      exact ⟨rfl, _, _, rfl⟩

end Solver

/-- On every graph a solver with sets for each node comes to rest, and finds all that it reads. -/
theorem solve_eq {g : FlowGraph} {p : GenKill} (gen : p.gen.size = g.nodeCount)
    (kill : p.kill.size = g.nodeCount) (strategy : Strategy) :
    ∃ r, solve g p strategy = some r ∧
      ((Solver.new g p).withStrategy strategy).solve = .ok r := by
  let s := (Solver.new g p).withStrategy strategy
  let table := g.nodeIds.map (g.sources p.direction)
  have listed : g.nodeIds.mapM (sources g p.direction) = some table := by
    apply mapM_eq_pure
    exact fun n hn => sources_eq (FlowGraph.mem_nodeIds.1 hn)
  have tables : Tables p g table.toArray := by
    refine ⟨gen, kill, fun n lt => ?_⟩
    have at_n : g.nodeIds[n]? = some n := List.getElem?_range lt
    rw [List.getElem?_toArray, List.getElem?_map, at_n]
    rfl
  obtain ⟨t, run⟩ : ∃ t, s.runFor s.limit = .ok t := by
    obtain ⟨k, -, r, solved, -⟩ := Solver.solve_eq_sweeps g p strategy
    rw [Solver.solve] at solved
    cases run : s.runFor s.limit with
    | error fault =>
      change Solver.results <$> s.runFor s.limit = _ at solved
      rw [run] at solved
      cases solved
    | ok t => exact ⟨t, rfl⟩
  have begin : s = s.reached (p.initialValuation g) 0 :=
    congrArg (Solver.withStrategy · strategy) Solver.new_eq_reached
  rw [begin] at run
  obtain ⟨checked, w, l, rfl⟩ :=
    runFor_reached Solver.ready_new tables (p.initialValuation g) 0 run
  rw [← begin] at run checked
  refine ⟨(s.reached w l).results, ?_, ?_⟩
  · rw [solve, visitOrder_eq, idleNodes_eq, listed]
    change (runFor table.toArray s s.limit >>= _) = _
    rw [checked]
    rfl
  · rw [Solver.solve]
    change Solver.results <$> s.runFor s.limit = _
    rw [run]
    rfl

end Checked
end FlowAnalysis
