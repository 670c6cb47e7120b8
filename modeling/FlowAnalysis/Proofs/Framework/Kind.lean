import FlowAnalysis.Framework
import FlowAnalysis.Proofs.FlowWalk

/-!
Kinds of solvers: what can be done with a solver and what it tells. Main statement: where one kind
of solver does step by step what another does, what passes of the other tell of its states, they tell
of the states of the one.
-/
namespace FlowAnalysis

theorem exists_of_bind_eq_ok {α β : Type} {x : Except Fault α} {f : α → Except Fault β} {b : β}
    (h : x >>= f = .ok b) : ∃ a, x = .ok a ∧ f a = .ok b := by
  cases x with
  | error fault => cases h
  | ok a => exact ⟨a, rfl, h⟩

theorem exists_of_map_eq_ok {α β : Type} {x : Except Fault α} {f : α → β} {b : β}
    (h : f <$> x = .ok b) : ∃ a, x = .ok a ∧ f a = b := by
  cases x with
  | error fault => cases h
  | ok a => exact ⟨a, rfl, Except.ok.inj h⟩

/-- Results with the same states. -/
def Results.SameStates {σ : Type} (q r : Results σ) : Prop :=
  q.entryStates = r.entryStates ∧ q.exitStates = r.exitStates

/-- There is a state on exit for each one on entry. -/
def Results.Shaped {σ : Type} (r : Results σ) : Prop := r.exitStates.size = r.entryStates.size

/-- All states are in `P`. -/
structure Results.AllIn {σ : Type} (r : Results σ) (P : σ → Prop) : Prop where
  shaped : r.Shaped
  entry : ∀ x ∈ r.entryStates, P x
  exit : ∀ x ∈ r.exitStates, P x

/-- Solvers of one analysis on one graph. -/
structure SolverKind (S σ : Type) where
  start : S
  resume : Results σ → S
  withStrategy : S → Strategy → S
  pass : S → Except Fault (S × Bool)
  order : S → List Nat
  results : S → Results σ

def Framework.kind {σ : Type} [DecidableEq σ] (f : Framework σ) (g : FlowGraph) :
    SolverKind (Iteration σ) σ where
  start := .new f g
  resume := .resume f g
  withStrategy := Iteration.withStrategy
  pass := Iteration.pass
  order := fun s => s.order.map Prod.fst
  results := Iteration.results

def GenKill.kind (p : GenKill) (g : FlowGraph) : SolverKind Solver BitSet where
  start := .new g p
  resume := .resume g p
  withStrategy := Solver.withStrategy
  pass := Solver.pass
  order := Solver.order
  results := Solver.results

namespace SolverKind

variable {S T σ : Type}

/-- Passes of the strategies in `schedule`, and their flags. -/
def follow (k : SolverKind S σ) : List Strategy → S → Except Fault (List Bool × S)
  | [], s => .ok ([], s)
  | strategy :: schedule, s => do
    let (s, changed) ← k.pass (k.withStrategy s strategy)
    let (flags, s) ← k.follow schedule s
    return (changed :: flags, s)

/-- What becomes of solvers that start anew, or from results in `A`. -/
inductive Reachable (k : SolverKind S σ) (A : Results σ → Prop) : S → Prop
  | start : Reachable k A k.start
  | resume {r : Results σ} (given : A r) : Reachable k A (k.resume r)
  | withStrategy {s : S} (strategy : Strategy) (before : Reachable k A s) :
      Reachable k A (k.withStrategy s strategy)
  | pass {s t : S} {changed : Bool} (before : Reachable k A s) (passed : k.pass s = .ok (t, changed)) :
      Reachable k A t

/-- Repeated passes from `s`, up to the first that changes nothing, have the results `r`. -/
inductive Solves (k : SolverKind S σ) : S → Results σ → Prop
  | last {s t : S} (quiet : k.pass s = .ok (t, false)) : Solves k s (k.results t)
  | next {s t : S} {r : Results σ} (loud : k.pass s = .ok (t, true)) (rest : Solves k t r) :
      Solves k s r

/-- A solver visits every participant once and nothing else. The flag of its next pass tells whether
states change, and if none does, none does in any pass after it. -/
structure Exact (k : SolverKind S σ) (g : FlowGraph) (d : Direction) (s : S) : Prop where
  once : (k.order s).Nodup
  visits : ∀ n, n ∈ k.order s ↔ g.Participates d n
  flag : ∀ t changed, k.pass s = .ok (t, changed) →
    (changed = false ↔ (k.results t).SameStates (k.results s))
  rest : ∀ t, k.pass s = .ok (t, false) → ∀ schedule : List Strategy, ∃ u,
    k.follow schedule t = .ok (List.replicate schedule.length false, u) ∧
      (k.results u).SameStates (k.results s)

/-- The results of a run are those of a state that it reaches. -/
theorem Solves.exists_reachable {k : SolverKind S σ} {A : Results σ → Prop} {s : S} {r : Results σ}
    (solves : k.Solves s r) (reached : k.Reachable A s) :
    ∃ t, k.Reachable A t ∧ k.results t = r := by
  induction solves with
  | last quiet => exact ⟨_, reached.pass quiet, rfl⟩
  | next loud rest ih => exact ih (reached.pass loud)

/-- Solvers of the kind `j` do what those of the kind `k` do that `f` makes of them, as long as they
have `Inv`, and they keep it. -/
structure Follows (f : S → T) (Inv : S → Prop) (j : SolverKind S σ) (k : SolverKind T σ) : Prop where
  start : f j.start = k.start
  resume : ∀ r : Results σ, r.Shaped → f (j.resume r) = k.resume r
  withStrategy : ∀ s strategy, f (j.withStrategy s strategy) = k.withStrategy (f s) strategy
  pass : ∀ s, Inv s → k.pass (f s) = Prod.map f id <$> j.pass s
  order : ∀ s, Inv s → k.order (f s) = j.order s
  results : ∀ s, k.results (f s) = j.results s
  invStart : Inv j.start
  invResume : ∀ r : Results σ, r.Shaped → Inv (j.resume r)
  invWithStrategy : ∀ s strategy, Inv s → Inv (j.withStrategy s strategy)
  invPass : ∀ s t changed, Inv s → j.pass s = .ok (t, changed) → Inv t

namespace Follows

variable {f : S → T} {Inv : S → Prop} {j : SolverKind S σ} {k : SolverKind T σ}
  {A : Results σ → Prop} {s t : S} {changed : Bool} (h : Follows f Inv j k)
include h

theorem pass_ok (inv : Inv s) (passed : j.pass s = .ok (t, changed)) :
    k.pass (f s) = .ok (f t, changed) := by
  rw [h.pass s inv, passed]
  rfl

theorem exists_pass_ok {u : T} (inv : Inv s) (passed : k.pass (f s) = .ok (u, changed)) :
    ∃ t, j.pass s = .ok (t, changed) ∧ f t = u := by
  rw [h.pass s inv] at passed
  obtain ⟨⟨t, flag⟩, ended, same⟩ := exists_of_map_eq_ok passed
  obtain ⟨rfl, rfl⟩ := Prod.mk.inj same
  exact ⟨t, ended, rfl⟩

theorem reachable (shaped : ∀ r, A r → r.Shaped) (reached : j.Reachable A s) :
    Inv s ∧ k.Reachable A (f s) := by
  induction reached with
  | start => exact ⟨h.invStart, h.start ▸ .start⟩
  | resume given => exact ⟨h.invResume _ (shaped _ given), h.resume _ (shaped _ given) ▸ .resume given⟩
  | withStrategy strategy before ih =>
    exact ⟨h.invWithStrategy _ _ ih.1, h.withStrategy _ _ ▸ ih.2.withStrategy strategy⟩
  | pass before passed ih => exact ⟨h.invPass _ _ _ ih.1 passed, ih.2.pass (h.pass_ok ih.1 passed)⟩

theorem exists_follow {schedule : List Strategy} {flags : List Bool} {u : T} (inv : Inv s)
    (followed : k.follow schedule (f s) = .ok (flags, u)) :
    ∃ t, j.follow schedule s = .ok (flags, t) ∧ f t = u := by
  induction schedule generalizing s flags with
  | nil =>
    cases followed
    exact ⟨s, rfl, rfl⟩
  | cons strategy schedule ih =>
    have inv := h.invWithStrategy s strategy inv
    rw [follow, ← h.withStrategy] at followed
    obtain ⟨⟨t', flag⟩, passed, followed⟩ := exists_of_bind_eq_ok followed
    obtain ⟨t, ended, rfl⟩ := h.exists_pass_ok inv passed
    obtain ⟨next, last, followed⟩ := exists_of_bind_eq_ok followed
    cases followed
    obtain ⟨v, ran, same⟩ := ih (h.invPass _ _ _ inv ended) last
    refine ⟨v, ?_, same⟩
    rw [follow, ended]
    change j.follow schedule t >>= _ = _
    rw [ran]
    rfl

theorem solves {r : Results σ} (inv : Inv s) (solves : j.Solves s r) : k.Solves (f s) r := by
  induction solves with
  | last quiet => exact h.results _ ▸ .last (h.pass_ok inv quiet)
  | next loud rest ih => exact .next (h.pass_ok inv loud) (ih (h.invPass _ _ _ inv loud))

theorem exact {g : FlowGraph} {d : Direction} (inv : Inv s) (exact : k.Exact g d (f s)) :
    j.Exact g d s where
  once := h.order s inv ▸ exact.once
  visits := h.order s inv ▸ exact.visits
  flag := fun t changed passed => by
    have flag := exact.flag (f t) changed (h.pass_ok inv passed)
    rwa [h.results, h.results] at flag
  rest := fun t passed schedule => by
    obtain ⟨u, followed, same⟩ := exact.rest (f t) (h.pass_ok inv passed) schedule
    obtain ⟨v, ran, rfl⟩ := h.exists_follow (h.invPass _ _ _ inv passed) followed
    rw [h.results, h.results] at same
    exact ⟨v, ran, same⟩

end Follows
end SolverKind
end FlowAnalysis
