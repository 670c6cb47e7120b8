import FlowAnalysis.Proofs.Framework.Passes

/-!
Passes that do not fault. Main statement: where the functions of a framework have values on a kind of
states, and those are of that kind, every pass over such states comes to an end.
-/
namespace FlowAnalysis

/-- On states in `P` the functions of the framework have values, all of which are in `P`. -/
structure Framework.Closed {σ : Type} (f : Framework σ) (g : FlowGraph) (P : σ → Prop) : Prop where
  boundary : P (f.boundary g)
  initial : P (f.initial g)
  meet : ∀ x y, P x → P y → ∃ z, f.meet x y = .ok z ∧ P z
  transfer : ∀ n node x, g.node? n = some node → P x → ∃ y, f.transfer g n node x = .ok y ∧ P y

theorem foldlM_preserves {α β : Type} {P : β → Prop} {f : β → α → Except Fault β} {as : List α}
    {b : β} (step : ∀ b, ∀ a ∈ as, P b → ∃ c, f b a = .ok c ∧ P c) (start : P b) :
    ∃ c, as.foldlM f b = .ok c ∧ P c := by
  induction as generalizing b with
  | nil => exact ⟨b, rfl, start⟩
  | cons a as ih =>
    obtain ⟨c, first, next⟩ := step b a List.mem_cons_self start
    obtain ⟨c', rest, last⟩ := ih (fun b a mem => step b a (List.mem_cons_of_mem _ mem)) next
    refine ⟨c', ?_, last⟩
    rw [List.foldlM_cons, first]
    exact rest

namespace Iteration

variable {σ : Type}

theorem forEach_preserves {α : Type} (Inv : Iteration σ → Prop) {as : List α} {s : Iteration σ}
    {step : Iteration σ → α → Except Fault (Iteration σ × Bool)}
    (each : ∀ s, ∀ a ∈ as, Inv s → ∃ t changed, step s a = .ok (t, changed) ∧ Inv t)
    (start : Inv s) : ∃ t changed, forEach step as s = .ok (t, changed) ∧ Inv t := by
  induction as generalizing s with
  | nil => exact ⟨s, false, rfl, start⟩
  | cons a as ih =>
    obtain ⟨t, now, first, next⟩ := each s a List.mem_cons_self start
    obtain ⟨u, later, rest, last⟩ := ih (fun s a mem => each s a (List.mem_cons_of_mem _ mem)) next
    exact ⟨u, now || later, forEach_cons_eq_ok_iff.2 ⟨t, now, later, first, rest, rfl⟩, last⟩

variable {f : Framework σ} {g : FlowGraph} {P : σ → Prop} {s t : Iteration σ}

/-- The iteration `s` solves `f` on `g`. -/
structure Treats (f : Framework σ) (g : FlowGraph) (s : Iteration σ) : Prop where
  framework : s.framework = f
  flow : s.flow = g
  order : s.order = (g.listing f.direction).nodes
  sources : s.sources = (g.nodeIds.map (g.sources f.direction)).toArray
  boundary : s.boundary = f.boundary g

/-- The iteration `s` solves `f` on `g`, and every node has states in `P`. -/
structure Holds (f : Framework σ) (g : FlowGraph) (P : σ → Prop) (s : Iteration σ) : Prop
    extends Treats f g s where
  states : ∀ n < g.nodeCount, ∃ x y, s.states n = (some x, some y) ∧ P x ∧ P y

theorem Treats.of_keeps (h : Treats f g s) (keeps : Keeps s t) : Treats f g t := by
  rw [keeps.frame]
  exact ⟨h.framework, h.flow, h.order, h.sources, h.boundary⟩

/-- Neither the strategy nor the number of passes matters. -/
theorem Treats.regardless (h : Treats f g s) (strategy : Strategy) (passes : Nat) :
    Treats f g { s with strategy := strategy, passes := passes } :=
  ⟨h.framework, h.flow, h.order, h.sources, h.boundary⟩

theorem Holds.regardless (h : Holds f g P s) (strategy : Strategy) (passes : Nat) :
    Holds f g P { s with strategy := strategy, passes := passes } :=
  ⟨h.toTreats.regardless strategy passes, h.states⟩

/-- Resuming starts anew, or puts the given states where the direction wants them. -/
theorem resume_cases (f : Framework σ) (g : FlowGraph) (r : Results σ) :
    resume f g r = new f g ∨ r.nodeCount = g.nodeCount ∧
      (resume f g r = { new f g with before := r.entryStates, after := r.exitStates } ∨
        resume f g r = { new f g with before := r.exitStates, after := r.entryStates }) := by
  unfold resume
  dsimp only
  split
  next count =>
    refine Or.inr ⟨count, ?_⟩
    cases f.direction with
    | forward => exact Or.inl rfl
    | backward => exact Or.inr rfl
  next => exact Or.inl rfl

theorem treats_resume (r : Results σ) : Treats f g (resume f g r) := by
  obtain same | ⟨-, same | same⟩ := resume_cases f g r <;> rw [same] <;>
    exact ⟨rfl, rfl, rfl, rfl, rfl⟩

section Evaluation

variable {n : Nat} {node : Node} (closed : f.Closed g P) (holds : Holds f g P s)
include closed holds

theorem exists_gather_ok (lt : n < g.nodeCount) :
    ∃ input, s.gather n = .ok input ∧ ∀ x, input = some x → P x := by
  rw [gather, holds.sources, read_sources lt]
  refine foldlM_preserves (fun input m feeds sound => ?_) ?_
  · obtain ⟨x, y, here, -, hy⟩ := holds.states m (FlowGraph.Feeds.lt feeds).1
    have after : read s.after m = .ok y := read_eq_ok_iff.2 (congrArg Prod.snd here)
    rw [after]
    cases input with
    | none => exact ⟨some y, rfl, fun z same => Option.some.inj same ▸ hy⟩
    | some x =>
      obtain ⟨z, met, hz⟩ := closed.meet x y (sound x rfl) hy
      refine ⟨some z, ?_, fun z' same => Option.some.inj same ▸ hz⟩
      simp only [bind, Except.bind, Framework.flowIn, holds.framework, met]
      rfl
  · intro x same
    rw [holds.flow, holds.framework, holds.boundary] at same
    split at same
    next => exact Option.some.inj same ▸ closed.boundary
    next => cases same

theorem exists_evaluate_ok (here : g.node? n = some node) :
    ∃ x y, s.evaluate n node = .ok (x, y) ∧ P x ∧ P y := by
  have lt : n < g.nodeCount := (Array.getElem?_eq_some_iff.1 here).1
  obtain ⟨input, gathered, sound⟩ := exists_gather_ok closed holds lt
  have transferred (x : σ) (hx : P x) : ∃ y, s.framework.transfer s.flow n node x = .ok y ∧ P y := by
    rw [holds.framework, holds.flow]
    exact closed.transfer n node x here hx
  rw [evaluate, gathered]
  cases input with
  | some x =>
    obtain ⟨y, value, hy⟩ := transferred x (sound x rfl)
    refine ⟨x, y, ?_, sound x rfl, hy⟩
    simp only [bind, Except.bind, pure, Except.pure, value]
  | none =>
    obtain ⟨x, y', there, hx, -⟩ := holds.states n lt
    obtain ⟨y, value, hy⟩ := transferred x hx
    have before : read s.before n = .ok x := read_eq_ok_iff.2 (congrArg Prod.fst there)
    refine ⟨x, y, ?_, hx, hy⟩
    simp only [bind, Except.bind, pure, Except.pure, before, value]

end Evaluation

section Start

variable (closed : f.Closed g P)
include closed

theorem holds_new : Holds f g P (new f g) := by
  refine ⟨⟨rfl, rfl, rfl, rfl, rfl⟩, fun n lt => ?_⟩
  have initial : (Array.replicate g.nodeCount (f.initial g))[n]? = some (f.initial g) := by
    rw [Array.getElem?_replicate, if_pos lt]
  by_cases here : g.boundaryNode f.direction = n
  · refine ⟨f.boundary g, f.initial g, Prod.ext ?_ initial, closed.boundary, closed.initial⟩
    refine (Array.getElem?_setIfInBounds.trans (if_pos here)).trans (if_pos ?_)
    simpa [here] using lt
  · refine ⟨f.initial g, f.initial g, Prod.ext ?_ initial, closed.initial, closed.initial⟩
    exact (Array.getElem?_setIfInBounds_ne here).trans initial

theorem holds_resume {r : Results σ} (given : r.AllIn P) : Holds f g P (resume f g r) := by
  have filled {xs ys : Array σ} (hx : xs.size = g.nodeCount) (hy : ys.size = g.nodeCount)
      (px : ∀ x ∈ xs, P x) (py : ∀ y ∈ ys, P y) :
      Holds f g P { new f g with before := xs, after := ys } := by
    refine ⟨⟨rfl, rfl, rfl, rfl, rfl⟩, fun n lt => ?_⟩
    have inside : n < xs.size := hx ▸ lt
    have inside' : n < ys.size := hy ▸ lt
    exact ⟨xs[n], ys[n], by simp [Iteration.states, inside, inside'],
      px _ (Array.getElem_mem inside), py _ (Array.getElem_mem inside')⟩
  obtain same | ⟨count, same | same⟩ := resume_cases f g r
  · exact same ▸ holds_new closed
  · exact same ▸ filled count (given.shaped.trans count) given.entry given.exit
  · exact same ▸ filled (given.shaped.trans count) count given.exit given.entry

end Start

section Progress

variable [DecidableEq σ]

theorem treats_of_reachable {A : Results σ → Prop} (reached : (f.kind g).Reachable A s) :
    Treats f g s := by
  induction reached with
  | start => exact ⟨rfl, rfl, rfl, rfl, rfl⟩
  | resume => exact treats_resume _
  | withStrategy strategy before ih => exact ih.regardless strategy _
  | pass before passed ih =>
    obtain ⟨u, run, rfl⟩ := pass_eq_ok_iff.1 passed
    exact (ih.of_keeps (sweep_keeps run)).regardless _ _

theorem exists_store_ok {n : Nat} {x y : σ} (holds : Holds f g P s) (lt : n < g.nodeCount)
    (hx : P x) (hy : P y) : ∃ t changed, s.store n x y = .ok (t, changed) ∧ Holds f g P t := by
  obtain ⟨x', y', here, -, -⟩ := holds.states n lt
  obtain ⟨before, after⟩ := Prod.mk.inj here
  have stored : s.store n x y = .ok _ := store_eq_ok_iff.2 ⟨x', y', before, after, rfl, rfl⟩
  have writes := writes_of_store stored
  refine ⟨_, _, stored, holds.toTreats.of_keeps writes.keeps, fun m hm => ?_⟩
  by_cases same : m = n
  · obtain ⟨inside, -⟩ := Array.getElem?_eq_some_iff.1 before
    obtain ⟨inside', -⟩ := Array.getElem?_eq_some_iff.1 after
    refine ⟨x, y, ?_, hx, hy⟩
    rw [same]
    simp [Iteration.states, inside, inside']
  · rw [writes.elsewhere m same]
    exact holds.states m hm

variable (closed : f.Closed g P)
include closed

theorem exists_gaussSeidelPass_ok (holds : Holds f g P s) :
    ∃ t changed, s.gaussSeidelPass = .ok (t, changed) ∧ Holds f g P t := by
  refine forEach_preserves (Holds f g P) (fun s' e listed holds' => ?_) holds
  rw [holds.order] at listed
  have here := FlowGraph.node?_of_mem_listing listed
  have lt : e.1 < g.nodeCount := (Array.getElem?_eq_some_iff.1 here).1
  obtain ⟨x, y, value, hx, hy⟩ := exists_evaluate_ok closed holds' here
  obtain ⟨t, changed, stored, kept⟩ := exists_store_ok holds' lt hx hy
  exact ⟨t, changed, visit_eq_ok_iff.2 ⟨x, y, value, stored⟩, kept⟩

theorem exists_jacobiPass_ok (holds : Holds f g P s) :
    ∃ t changed, s.jacobiPass = .ok (t, changed) ∧ Holds f g P t := by
  obtain ⟨updates, evaluated⟩ : ∃ updates : List (Nat × σ × σ), s.order.Forall₂ (fun e u =>
      (e.1 = u.1 ∧ s.evaluate e.1 e.2 = .ok u.2) ∧ u.1 < g.nodeCount ∧ P u.2.1 ∧ P u.2.2)
      updates := by
    refine exists_forall₂ fun e listed => ?_
    rw [holds.order] at listed
    have here := FlowGraph.node?_of_mem_listing listed
    have lt : e.1 < g.nodeCount := (Array.getElem?_eq_some_iff.1 here).1
    obtain ⟨x, y, value, hx, hy⟩ := exists_evaluate_ok closed holds here
    exact ⟨(e.1, x, y), ⟨rfl, value⟩, lt, hx, hy⟩
  have each (t : Iteration σ) (u : Nat × σ × σ) (mem : u ∈ updates) (holds : Holds f g P t) :
      ∃ t' changed, t.store u.1 u.2.1 u.2.2 = .ok (t', changed) ∧ Holds f g P t' := by
    obtain ⟨e, -, -, lt, hx, hy⟩ := exists_mem_of_forall₂ evaluated.flip mem
    exact exists_store_ok holds lt hx hy
  obtain ⟨t, changed, run, kept⟩ := forEach_preserves (Holds f g P) each holds
  exact ⟨t, changed, jacobiPass_eq_ok_iff.2 ⟨updates, evaluated.imp fun _ _ h => h.1, run⟩, kept⟩

/-- A pass over states in `P` comes to an end, and leaves states in `P`. -/
theorem exists_pass_ok (holds : Holds f g P s) :
    ∃ t changed, s.pass = .ok (t, changed) ∧ Holds f g P t := by
  obtain ⟨u, changed, run, kept⟩ : ∃ u changed, s.sweep = .ok (u, changed) ∧ Holds f g P u := by
    unfold sweep
    cases s.strategy with
    | gaussSeidel => exact exists_gaussSeidelPass_ok closed holds
    | jacobi => exact exists_jacobiPass_ok closed holds
  exact ⟨_, changed, pass_eq_ok_iff.2 ⟨u, run, rfl⟩, kept.regardless _ _⟩

theorem holds_of_reachable {A : Results σ → Prop} (all : ∀ r, A r → r.AllIn P)
    (reached : (f.kind g).Reachable A s) : Holds f g P s := by
  induction reached with
  | start => exact holds_new closed
  | resume given => exact holds_resume closed (all _ given)
  | withStrategy strategy before ih => exact ih.regardless strategy _
  | pass before passed ih =>
    obtain ⟨t, changed, run, kept⟩ := exists_pass_ok closed ih
    cases Except.ok.inj (run.symm.trans passed)
    exact kept

end Progress
end Iteration
end FlowAnalysis
