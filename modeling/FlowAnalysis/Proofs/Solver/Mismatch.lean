import FlowAnalysis.Proofs.Digraph.Postorder
import FlowAnalysis.Proofs.Solver.Resume
import FlowAnalysis.Proofs.Solver.Schedule

/-!
Solvers that go on from states of another universe. Main statements: a Jacobi pass faults if any
node that it evaluates has a source, and a Gauss-Seidel pass if it evaluates any node before one of
its sources; but one that evaluates every node after its sources forgets the states before it.
-/
namespace FlowAnalysis

/-- The one fault that can happen is that states of different universes meet. -/
def MayMismatch {α : Type} (x : Except Fault α) : Prop :=
  x = .error .universeMismatch ∨ ∃ a, x = .ok a

theorem mayMismatch_within (s : BitSet) (n : Nat) : MayMismatch (s.within n) := by
  by_cases h : s.size = n
  · exact Or.inr ⟨_, dif_pos h⟩
  · exact Or.inl (BitSet.within_of_ne h)

theorem MayMismatch.bind {α β : Type} {x : Except Fault α} {f : α → Except Fault β}
    (h : MayMismatch x) (next : ∀ a, MayMismatch (f a)) : MayMismatch (x >>= f) := by
  obtain rfl | ⟨a, rfl⟩ := h
  · exact Or.inl rfl
  · exact next a

section MapM

variable {α β : Type} {f : α → Except Fault β} (each : ∀ x, MayMismatch (f x))
include each

theorem mayMismatch_mapM (xs : List α) : MayMismatch (xs.mapM f) := by
  induction xs with
  | nil => exact Or.inr ⟨_, rfl⟩
  | cons x xs ih =>
    rw [List.mapM_cons]
    exact (each x).bind fun y => ih.bind fun ys => Or.inr ⟨_, rfl⟩

theorem mapM_mismatch {xs : List α} {x : α} (mem : x ∈ xs)
    (mismatch : f x = .error .universeMismatch) : xs.mapM f = .error .universeMismatch := by
  induction xs with
  | nil => cases mem
  | cons y ys ih =>
    rw [List.mapM_cons]
    obtain first | ⟨b, first⟩ := each y
    · rw [first]
      rfl
    · obtain rfl | later := List.mem_cons.1 mem
      · rw [mismatch]
        rfl
      · rw [first, ih later]
        rfl

end MapM

namespace GenKill

variable {p : GenKill} {g : FlowGraph} {cells : Array Cell} {order : List Nat} {m n : Nat}
  {u v : Valuation p.size}

theorem mayMismatch_evaluate (p : GenKill) (g : FlowGraph) (cells : Array Cell) (n : Nat) :
    MayMismatch (p.evaluate g cells n) := by
  refine MayMismatch.bind (mayMismatch_mapM (fun m => mayMismatch_within _ _) _) fun states => ?_
  cases p.inflow g n states with
  | nil => exact (mayMismatch_within _ _).bind fun before => Or.inr ⟨_, rfl⟩
  | cons x xs => exact Or.inr ⟨_, rfl⟩

/-- A node is not evaluated from a source of another universe. -/
theorem evaluate_mismatch (feeds : g.Feeds p.direction m n)
    (foreign : (Cell.read cells m).after.size ≠ p.size) :
    p.evaluate g cells n = .error .universeMismatch := by
  have states : p.sourceStates g cells n = .error .universeMismatch :=
    mapM_mismatch (fun m => mayMismatch_within _ _) feeds (BitSet.within_of_ne foreign)
  rw [evaluate, states]
  rfl

theorem jacobiPass_mismatch (hn : n ∈ order) (feeds : g.Feeds p.direction m n)
    (foreign : (Cell.read cells m).after.size ≠ p.size) :
    p.jacobiPass g order cells = .error .universeMismatch := by
  have updates : (order.mapM fun n => do return (n, ← p.evaluate g cells n)) =
      .error .universeMismatch := by
    refine mapM_mismatch (fun n => ?_) hn ?_
    · exact (mayMismatch_evaluate p g cells n).bind fun c => Or.inr ⟨_, rfl⟩
    · rw [evaluate_mismatch feeds foreign]
      rfl
  rw [jacobiPass, updates]
  rfl

/-- The evaluation of a node in a Gauss-Seidel pass. -/
def visit (p : GenKill) (g : FlowGraph) (acc : Array Cell × Bool) (n : Nat) :
    Except Fault (Array Cell × Bool) := do
  return Cell.record acc n (← p.evaluate g acc.1 n)

theorem read_record_of_ne {acc : Array Cell × Bool} {c : Cell} (h : m ≠ n) :
    Cell.read (Cell.record acc n c).1 m = Cell.read acc.1 m := by
  simp [Cell.record, Cell.read, Array.getD_eq_getD_getElem?, h.symm]

theorem read_record_self {acc : Array Cell × Bool} {c : Cell} (h : n < acc.1.size) :
    Cell.read (Cell.record acc n c).1 n = c := by
  simp [Cell.record, Cell.read, Array.getD_eq_getD_getElem?, h]

/-- A node that a pass has not evaluated has the states from before. -/
theorem foldlM_visit_untouched (acc : Array Cell × Bool) (order : List Nat) :
    order.foldlM (p.visit g) acc = .error .universeMismatch ∨
      ∃ acc', order.foldlM (p.visit g) acc = .ok acc' ∧
        ∀ m ∉ order, Cell.read acc'.1 m = Cell.read acc.1 m := by
  induction order generalizing acc with
  | nil => exact Or.inr ⟨acc, rfl, fun _ _ => rfl⟩
  | cons n order ih =>
    rw [List.foldlM_cons, visit]
    obtain fault | ⟨c, evaluated⟩ := mayMismatch_evaluate p g acc.1 n
    · rw [fault]
      exact Or.inl rfl
    · rw [evaluated]
      obtain fault | ⟨acc', rest, kept⟩ := ih (Cell.record acc n c)
      · exact Or.inl fault
      · refine Or.inr ⟨acc', rest, fun m hm => ?_⟩
        rw [List.mem_cons, not_or] at hm
        exact (kept m hm.2).trans (read_record_of_ne hm.1)

theorem gaussSeidelPass_mismatch (hn : n ∈ order) (feeds : g.Feeds p.direction m n)
    (late : ¬ Precedes order m n) (foreign : (Cell.read cells m).after.size ≠ p.size) :
    p.gaussSeidelPass g order cells = .error .universeMismatch := by
  obtain ⟨pre, post, whole⟩ := List.append_of_mem hn
  have fresh : m ∉ pre := fun mem => late ⟨pre, post, whole, mem⟩
  change order.foldlM (p.visit g) (cells, false) = _
  rw [whole, List.foldlM_append]
  obtain fault | ⟨acc, reached, kept⟩ := foldlM_visit_untouched (p := p) (g := g) (cells, false) pre
  · rw [fault]
    rfl
  · rw [← kept m fresh] at foreign
    rw [reached]
    change List.foldlM (p.visit g) acc (n :: post) = _
    rw [List.foldlM_cons, visit, evaluate_mismatch feeds foreign]
    rfl

/-- An evaluation sees the states of its sources alone, if it has any. -/
theorem evaluate_of_sources (seen : ∀ m, g.Feeds p.direction m n → Cell.read cells m = u.cell m)
    (fed : n = g.boundaryNode p.direction ∨ g.sources p.direction n ≠ []) :
    p.evaluate g cells n = .ok ((p.image g u).cell n) := by
  have states : p.sourceStates g cells n = .ok ((g.sources p.direction n).map u.after) := by
    apply mapM_eq_pure
    intro m hm
    rw [seen m hm]
    exact BitSet.within_ofBits _
  unfold evaluate Valuation.cell image inState
  rw [states]
  simp only [bind, Except.bind]
  cases h : p.inflow g n ((g.sources p.direction n).map u.after) with
  | nil =>
    unfold inflow at h
    split at h
    next => cases h
    next inner => exact absurd (List.map_eq_nil_iff.1 h) (fed.resolve_left inner)
  | cons x xs => rfl

/-- A part of a pass that evaluates each node after its sources, and its states. -/
theorem foldlM_visit_forgets (size : cells.size = g.nodeCount)
    (valid : ∀ n ∈ order, n < g.nodeCount)
    (fed : ∀ n ∈ order, n = g.boundaryNode p.direction ∨ g.sources p.direction n ≠ [])
    (early : ∀ pre n post, order = pre ++ n :: post → ∀ m, g.Feeds p.direction m n → m ∈ pre) :
    ∃ acc, order.foldlM (p.visit g) (cells, false) = .ok acc ∧ acc.1.size = g.nodeCount ∧
      ∀ m ∈ order, Cell.read acc.1 m = (p.sweepFrom g .gaussSeidel v order v).cell m := by
  induction order using List.reverseRecOn with
  | nil => exact ⟨(cells, false), rfl, size, fun m hm => by cases hm⟩
  | append_singleton pre n ih =>
    rw [List.forall_mem_append] at valid fed
    obtain ⟨acc, reached, size, same⟩ := ih valid.1 fed.1 fun first k rest whole =>
      early first k (rest ++ [n]) (by rw [whole]; simp)
    have lt : n < g.nodeCount := valid.2 n (List.mem_singleton_self n)
    have evaluated := evaluate_of_sources
      (fun m feeds => same m (early pre n [] rfl m feeds)) (fed.2 n (List.mem_singleton_self n))
    let w := p.sweepFrom g .gaussSeidel v pre v
    refine ⟨Cell.record acc n ((p.image g w).cell n), ?_, ?_, ?_⟩
    · rw [List.foldlM_append, reached]
      change List.foldlM (p.visit g) acc [n] = _
      rw [List.foldlM_cons, visit, evaluated]
      rfl
    · simpa [Cell.record] using size
    · intro m hm
      rw [sweepFrom_append, sweepFrom_cons]
      by_cases here : m = n
      · subst here
        rw [read_record_self (size.symm ▸ lt)]
        exact (Valuation.cell_eq_iff.2 Valuation.patch_sameAt).symm
      · have before : m ∈ pre := (List.mem_append.1 hm).resolve_right (by simpa using here)
        rw [read_record_of_ne here, same m before]
        exact (Valuation.cell_eq_iff.2 (Valuation.patch_sameAt_of_ne here)).symm

/-- A Gauss-Seidel pass that evaluates every node, each after its sources, comes from any states to
those that it comes to from a valuation. -/
theorem gaussSeidelPass_forgets (size : cells.size = g.nodeCount) (nodup : order.Nodup)
    (whole : ∀ n, n ∈ order ↔ n < g.nodeCount)
    (fed : ∀ n ∈ order, n = g.boundaryNode p.direction ∨ g.sources p.direction n ≠ [])
    (early : ∀ m n, g.Feeds p.direction m n → Precedes order m n) :
    ∃ changed, p.gaussSeidelPass g order cells =
      .ok ((p.sweep g .gaussSeidel order v).cells g.nodeCount, changed) := by
  obtain ⟨⟨reached, changed⟩, passed, size, same⟩ := foldlM_visit_forgets (v := v) size
    (fun n => (whole n).1) fed fun pre n post split m feeds =>
      (early m n feeds).mem_of_split nodup split
  have cellsEq : reached = (p.sweep g .gaussSeidel order v).cells g.nodeCount := by
    apply Array.ext
    · rw [size, Valuation.cells, Array.size_ofFn]
    · intro n hn hn'
      have lt : n < g.nodeCount := size ▸ hn
      have here := same n ((whole n).2 lt)
      rw [Cell.read, Array.getD_eq_getD_getElem?, Array.getElem?_eq_getElem hn] at here
      simp only [Valuation.cells, Array.getElem_ofFn]
      exact here
  exact ⟨changed, cellsEq ▸ passed⟩

end GenKill

namespace Solver

variable {p : GenKill} {g : FlowGraph} {s : Solver} {schedule : Nat → Strategy}

/-- A solver whose first pass comes to a valuation goes on through valuations. -/
theorem follow_of_first {w : Valuation p.size} {changed : Bool}
    (first : (s.withStrategy (schedule 0)).pass =
      .ok (((new g p).withStrategy (schedule 0)).reached w 1, changed)) (k : Nat) :
    ∃ t changed, s.follow schedule k = .ok (t, changed) := by
  have later : ∀ k, ∃ (w : Valuation p.size) (changed : Bool), s.follow schedule (k + 1) =
      .ok (((new g p).withStrategy (schedule k)).reached w (k + 1), changed) := by
    intro k
    induction k with
    | zero => exact ⟨w, changed, first⟩
    | succ k ih =>
      obtain ⟨w, changed, reached⟩ := ih
      rw [follow, reached]
      have ready : Ready ((new g p).withStrategy (schedule (k + 1))) := ready_new
      exact ⟨_, _, pass_reached ready w (k + 1)⟩
  cases k with
  | zero => exact ⟨s, true, rfl⟩
  | succ k =>
    obtain ⟨w, changed, reached⟩ := later k
    exact ⟨_, _, reached⟩

section Resume

variable {size : Nat} {u : Valuation size} {r : Results BitSet}
  (shows : r.Shows g.nodeCount p.direction u)
include shows

theorem resume_of_shows : resume g p r = { new g p with cells := u.cells g.nodeCount } := by
  have count : r.nodeCount = g.nodeCount := by
    rw [Results.nodeCount, shows.entry, Array.size_ofFn]
  rw [resume, if_pos count, cellsOf_eq shows]

theorem pass_resume_fits (same : size = p.size) (strategy : Strategy) :
    ∃ (w : Valuation p.size) (changed : Bool), ((resume g p r).withStrategy strategy).pass =
      .ok (((new g p).withStrategy strategy).reached w 1, changed) := by
  subst same
  rw [resume_eq_reached shows]
  exact ⟨_, _, pass_reached ready_new u 0⟩

/-- From states of another universe a pass faults if it sees any of them. -/
theorem pass_resume_mismatch (other : size ≠ p.size) {strategy : Strategy}
    (sees : ∃ m n, g.Feeds p.direction m n ∧ g.Participates p.direction n ∧
      (strategy = .gaussSeidel → ¬ Precedes (g.visitOrder p.direction) m n)) :
    ((resume g p r).withStrategy strategy).pass = .error .universeMismatch := by
  obtain ⟨m, n, feeds, part, late⟩ := sees
  have hn := (FlowGraph.mem_visitOrder_iff n).2 part
  have foreign : (Cell.read (u.cells g.nodeCount) m).after.size ≠ p.size := by
    rw [Valuation.read_cells feeds.lt.1]
    exact other
  rw [resume_of_shows shows]
  cases strategy with
  | gaussSeidel =>
    have fault := GenKill.gaussSeidelPass_mismatch hn feeds (late rfl) foreign
    simp only [pass, withStrategy, new, fault]
    rfl
  | jacobi =>
    have fault := GenKill.jacobiPass_mismatch hn feeds foreign
    simp only [pass, withStrategy, new, fault]
    rfl

/-- A Gauss-Seidel pass that evaluates every node, each after its sources, takes states of any
universe for those of a new solver. -/
theorem pass_resume_forgets (all : ∀ n < g.nodeCount, g.Participates p.direction n)
    (early : ∀ m n, g.Feeds p.direction m n → Precedes (g.visitOrder p.direction) m n) :
    ∃ changed, ((resume g p r).withStrategy .gaussSeidel).pass =
      .ok (((new g p).withStrategy .gaussSeidel).reached
        (p.sweep g .gaussSeidel (g.visitOrder p.direction) (p.initialValuation g)) 1, changed) := by
  have visits := FlowGraph.mem_visitOrder_iff (g := g) (d := p.direction)
  have size : (u.cells g.nodeCount).size = g.nodeCount := Array.size_ofFn
  obtain ⟨changed, passed⟩ := GenKill.gaussSeidelPass_forgets (v := p.initialValuation g) size
    FlowGraph.nodup_visitOrder
    (fun n => ⟨FlowGraph.lt_of_mem_visitOrder, fun lt => (visits n).2 (all n lt)⟩)
    (fun n hn => ((visits n).1 hn).fed) early
  refine ⟨changed, ?_⟩
  rw [resume_of_shows shows]
  simp only [pass, withStrategy, new, passed]
  rfl

end Resume

end Solver
end FlowAnalysis
