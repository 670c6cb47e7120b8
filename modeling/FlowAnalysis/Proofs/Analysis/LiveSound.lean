import FlowAnalysis.Proofs.Analysis.LiveVariables
import FlowAnalysis.Proofs.FlowGraph.Simulation

/-!
What live variables mean for executions. Main statement: executions of a program from stores that
agree on the variables live at its start pass the same points, and at each of them they agree on the
variables live there.
-/
namespace FlowAnalysis

universe u

/-- The report lists facts on entry to `l`, and the stores agree on the variables among them. -/
def Report.AgreeAt {V : Type u} (r : Report) (l : Label) (σ τ : Variable → V) : Prop :=
  ∃ facts, r.entry? l = some facts ∧ ∀ x, Fact.var x ∈ facts → σ x = τ x

namespace FlowGraph

variable {g : FlowGraph} {s : Statement} {n k : Nat} {x : Variable}

/-- Some walk from `n` reads `x` before it assigns `x`. -/
def Live (g : FlowGraph) (n : Nat) (x : Variable) : Prop :=
  ∃ ns m, Walk g.Step n ns m ∧ g.Reads m x ∧ ∀ k ∈ ns, ¬ g.Assigns k x

theorem Reads.live (h : g.Reads n x) : g.Live n x := ⟨[], n, Walk.stay, h, by simp⟩

theorem Live.of_step (step : g.Step n k) (keep : ¬ g.Assigns n x) (h : g.Live k x) :
    g.Live n x := by
  obtain ⟨ns, m, walk, reads, kept⟩ := h
  exact ⟨n :: ns, m, Walk.cons step walk, reads, List.forall_mem_cons.2 ⟨keep, kept⟩⟩

theorem live_iff : g.Live n x ↔ g.Reads n x ∨
    (∃ mid m, Walk g.Step n (n :: mid) m ∧ g.Reads m x ∧ ∀ k ∈ mid, ¬ g.Assigns k x) ∧
      ¬ g.Assigns n x := by
  constructor
  · rintro ⟨ns, m, walk, reads, kept⟩
    cases ns with
    | nil => exact Or.inl (Walk.nil_iff.1 walk ▸ reads)
    | cons k mid =>
      obtain ⟨rfl, -⟩ := Walk.cons_iff.1 walk
      obtain ⟨here, later⟩ := List.forall_mem_cons.1 kept
      exact Or.inr ⟨⟨mid, m, walk, reads, later⟩, here⟩
  · rintro (reads | ⟨⟨mid, m, walk, reads, later⟩, here⟩)
    · exact reads.live
    · exact ⟨n :: mid, m, walk, reads, List.forall_mem_cons.2 ⟨here, later⟩⟩

/-- The report on a program lists on entry to a node the variables live there. -/
theorem exists_entry_iff_live (built : build s = .ok g) (strategy : Strategy) (scope : Scope) :
    ∃ r, s.analyze { kind := .liveVariables, strategy, scope } = .ok r ∧
      ∀ n node, g.node? n = some node → ∃ entry : List Variable,
        r.entry? node.label = some (entry.map .var) ∧ ∀ x, x ∈ entry ↔ g.Live n x := by
  obtain ⟨r, v, analyzed, walks, lists⟩ :=
    Statement.analyze_overWalks built ⟨.liveVariables, strategy, scope⟩ g.liveVariables .var rfl
  refine ⟨r, analyzed, fun n node h => ?_⟩
  obtain ⟨hn, entry, -⟩ := lists n node h
  refine ⟨_, entry, fun x => ?_⟩
  refine (Analysis.mem_holding_after walks hn).trans ?_
  rw [mem_genAt_liveVariables, mem_killAt_liveVariables, mem_holding_liveVariables built walks hn,
    live_iff]
  refine and_iff_right_of_imp ?_
  rintro (reads | ⟨⟨_, _, _, reads, _⟩, _⟩) <;> exact reads.mem_variables

section Runs

variable {V : Type u} (m : Evaluator V) {p : List (Nat × Statement)} {σ τ : Variable → V}

/-- A step from stores that agree on the variables live before it goes the same way from both, and
leaves them in agreement on the variables live after it. -/
theorem Placed.step_agree (h : g.Placed p) (agree : ∀ x, g.Live (g.point p) x → σ x = τ x) :
    (m.step ⟨p, σ⟩).pending = (m.step ⟨p, τ⟩).pending ∧
      ∀ x, g.Live (g.point (m.step ⟨p, σ⟩).pending) x →
        (m.step ⟨p, σ⟩).store x = (m.step ⟨p, τ⟩).store x := by
  cases p with
  | nil => exact ⟨rfl, agree⟩
  | cons q rest =>
    obtain ⟨i, s⟩ := q
    rw [Evaluator.step_cons, Evaluator.step_cons]
    cases ha : s.action? with
    | none =>
      refine ⟨rfl, fun x live => agree x ?_⟩
      have entered : g.Live (g.point (s.proceed true i rest)) x := live
      rwa [(h.proceed true).2.2 ha] at entered
    | some a =>
      have at_i := h.1.2.action ha
      have step : ∀ b, g.Step i (g.point (s.proceed b i rest)) := fun b =>
        (h.proceed b).2.1 (by simp [ha])
      -- what the point evaluates has the same value in both stores
      have same : ∀ e, (Node.mk (.stmt (i + 1)) a).expr? = some e → m.eval e σ = m.eval e τ :=
        fun e evaluates => m.eval_congr e σ τ fun x mem =>
          agree x (Reads.live ⟨_, e, at_i, evaluates, mem⟩)
      have keep : ∀ b x, ¬ g.Assigns i x → g.Live (g.point (s.proceed b i rest)) x → σ x = τ x :=
        fun b x kept live => agree x (live.of_step (step b) kept)
      have unassigned : ∀ x, (Node.mk (.stmt (i + 1)) a).assigned? ≠ some x → ¬ g.Assigns i x := by
        rintro x other ⟨node, at_i', assigned⟩
        obtain rfl := Option.some.inj (at_i.symm.trans at_i')
        exact other assigned
      cases a with
      | skip => exact ⟨rfl, fun x live => keep _ x (unassigned x (by simp [Node.assigned?])) live⟩
      | exit => exact ⟨rfl, fun x live => keep _ x (unassigned x (by simp [Node.assigned?])) live⟩
      | test c =>
        have outcome : m.outcome σ (some (.test c)) = m.outcome τ (some (.test c)) :=
          congrArg m.truth (same c rfl)
        rw [outcome]
        exact ⟨rfl, fun x live => keep _ x (unassigned x (by simp [Node.assigned?])) live⟩
      | assign y e =>
        refine ⟨rfl, fun x live => ?_⟩
        simp only [Evaluator.effect]
        by_cases own : x = y
        · rw [own, Function.update_self, Function.update_self]
          exact same e rfl
        · rw [Function.update_of_ne own, Function.update_of_ne own]
          refine keep _ x (unassigned x fun assigned => own ?_) live
          exact (Option.some.inj assigned).symm

/-- Runs from stores that agree on the variables live at the start never come apart. -/
theorem run_agree (built : build s = .ok g) (agree : ∀ x, g.Live 0 x → σ x = τ x) (k : Nat) :
    (m.run s σ k).pending = (m.run s τ k).pending ∧
      ∀ x, g.Live (g.point (m.run s σ k).pending) x →
        (m.run s σ k).store x = (m.run s τ k).store x := by
  induction k with
  | zero => exact ⟨rfl, agree⟩
  | succ k ih =>
    have placed := placed_run built m σ k
    have together := placed.step_agree m ih.2
    have other : m.run s τ k = ⟨(m.run s σ k).pending, (m.run s τ k).store⟩ := by
      rw [ih.1]
    rw [Evaluator.run, Evaluator.run, other]
    exact together

end Runs

/-- From stores that agree on the variables live at its first point, a program passes the same
points at the same steps and finishes with both or with neither; and wherever a point comes next,
the stores agree on the variables live there. -/
theorem runs_agree_on_live (built : build s = .ok g) (strategy : Strategy) (scope : Scope) :
    ∃ r, s.analyze { kind := .liveVariables, strategy, scope } = .ok r ∧
      ∀ {V : Type u} (m : Evaluator V) (σ τ : Variable → V), r.AgreeAt (.stmt 1) σ τ →
        ∀ k, (m.run s σ k).label? = (m.run s τ k).label? ∧
          ((m.run s σ k).Finished ↔ (m.run s τ k).Finished) ∧
          ∀ l, (m.run s σ k).label? = some l →
            r.AgreeAt l (m.run s σ k).store (m.run s τ k).store := by
  obtain ⟨r, analyzed, lists⟩ := exists_entry_iff_live built strategy scope
  refine ⟨r, analyzed, fun m σ τ first k => ?_⟩
  have agree : ∀ x, g.Live 0 x → σ x = τ x := by
    obtain ⟨accepted, rfl⟩ := build_eq_ok.1 built
    obtain ⟨node, at_zero, label⟩ :=
      Option.map_eq_some_iff.1 (label?_point (wired_ofStatement accepted).size_pos)
    obtain ⟨entry, listed, mem⟩ := lists 0 node at_zero
    obtain ⟨facts, listed', same⟩ := first
    rw [label] at listed
    obtain rfl := Option.some.inj (listed.symm.trans listed')
    exact fun x live => same x (List.mem_map_of_mem ((mem x).2 live))
  obtain ⟨pending, stores⟩ := run_agree m built agree k
  have label : (m.run s σ k).label? = (m.run s τ k).label? := by
    rw [Execution.label?, Execution.label?, pending]
  refine ⟨label, by rw [Execution.Finished, Execution.Finished, pending], fun l next => ?_⟩
  obtain ⟨node, at_point, rfl⟩ := node?_of_label? built (placed_run built m σ k) next
  obtain ⟨entry, listed, mem⟩ := lists _ node at_point
  refine ⟨_, listed, fun x hx => stores x ((mem x).1 ?_)⟩
  simpa using hx

/-- A variable that occurs nowhere is no matter. -/
theorem runs_agree_on_live_countdown :
    build .countdown = .ok (ofStatement .countdown) ∧
      ∃ r, ∃ σ τ : Variable → Int, σ "z" = 2 ∧ τ "z" = 7 ∧
        Statement.countdown.analyze ⟨.liveVariables, .jacobi, .topLevel⟩ = .ok r ∧
        r.AgreeAt (.stmt 1) σ τ ∧
        ∀ k, (Evaluator.int.run .countdown σ k).label? = (Evaluator.int.run .countdown τ k).label? ∧
          ∀ l, (Evaluator.int.run .countdown σ k).label? = some l →
            r.AgreeAt l (Evaluator.int.run .countdown σ k).store
              (Evaluator.int.run .countdown τ k).store := by
  obtain ⟨r, analyzed, agree⟩ := runs_agree_on_live build_countdown .jacobi .topLevel
  obtain ⟨r', analyzed', lists⟩ := exists_entry_iff_live build_countdown .jacobi .topLevel
  obtain rfl : r = r' := Except.ok.inj (analyzed.symm.trans analyzed')
  have first : r.AgreeAt (.stmt 1) (fun _ => (2 : Int)) (Function.update (fun _ => 2) "z" 7) := by
    obtain ⟨entry, listed, mem⟩ := lists 0 _ rfl
    refine ⟨_, listed, fun x hx => ?_⟩
    have other : x ≠ "z" := by
      rintro rfl
      obtain ⟨-, m, -, reads, -⟩ := (mem "z").1 (by simpa using hx)
      have used := Variable.mem_ascending.1 reads.mem_variables
      revert used
      decide
    rw [Function.update_of_ne other]
  refine ⟨build_countdown, r, _, _, rfl, Function.update_self _ _ _, analyzed, first, fun k => ?_⟩
  obtain ⟨label, -, stores⟩ := agree Evaluator.int _ _ first k
  exact ⟨label, stores⟩

end FlowGraph
end FlowAnalysis
