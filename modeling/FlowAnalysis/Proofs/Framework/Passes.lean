import FlowAnalysis.Proofs.Framework.Kind
import FlowAnalysis.Proofs.Framework.Listing

/-!
Passes of an iteration. Main statement: an iteration visits the participants once each, a pass
changes no state just if its flag says so, and then no later pass of either strategy changes any.
-/
namespace FlowAnalysis

theorem mapM_eq_ok_iff {α β : Type} {f : α → Except Fault β} {as : List α} {bs : List β} :
    as.mapM f = .ok bs ↔ as.Forall₂ (fun a b => f a = .ok b) bs := by
  induction as generalizing bs with
  | nil =>
    rw [List.forall₂_nil_left_iff, List.mapM_nil]
    exact ⟨fun h => by cases h; rfl, fun h => h ▸ rfl⟩
  | cons a as ih =>
    rw [List.mapM_cons]
    constructor
    · intro run
      obtain ⟨b, first, run⟩ := exists_of_bind_eq_ok run
      obtain ⟨bs, rest, run⟩ := exists_of_bind_eq_ok run
      cases run
      exact .cons first (ih.1 rest)
    · intro each
      cases each with
      | cons first rest =>
        rw [first, ih.2 rest]
        rfl

section Forall₂

variable {α β : Type} {R : α → β → Prop} {as : List α} {bs : List β}

theorem exists_forall₂ (each : ∀ a ∈ as, ∃ b, R a b) : ∃ bs, as.Forall₂ R bs := by
  induction as with
  | nil => exact ⟨[], .nil⟩
  | cons a as ih =>
    obtain ⟨b, first⟩ := each a List.mem_cons_self
    obtain ⟨bs, rest⟩ := ih fun a mem => each a (List.mem_cons_of_mem _ mem)
    exact ⟨b :: bs, .cons first rest⟩

theorem exists_mem_of_forall₂ {a : α} (h : as.Forall₂ R bs) (mem : a ∈ as) :
    ∃ b ∈ bs, R a b := by
  induction h with
  | nil => cases mem
  | cons first rest ih =>
    obtain rfl | mem := List.mem_cons.1 mem
    · exact ⟨_, List.mem_cons_self, first⟩
    · obtain ⟨b, there, related⟩ := ih mem
      exact ⟨b, List.mem_cons_of_mem _ there, related⟩

end Forall₂

namespace Iteration

section Loops

variable {σ α : Type} {s t u : Iteration σ} {as : List α} {n : Nat} {changed : Bool}
  {step : Iteration σ → α → Except Fault (Iteration σ × Bool)} {key : α → Nat}

private theorem forEach_from (flag : Bool) (s : Iteration σ) :
    (as.foldlM (fun (s, changed) a => do
      let (s, now) ← step s a
      return (s, changed || now)) (s, flag) : Except Fault _) =
    Prod.map id (flag || ·) <$> forEach step as s := by
  unfold forEach
  induction as generalizing s flag with
  | nil => cases flag <;> rfl
  | cons a as ih =>
    rw [List.foldlM_cons, List.foldlM_cons, bind_assoc, bind_assoc, map_bind]
    refine bind_congr fun (t, now) => ?_
    rw [pure_bind, pure_bind, ih (flag || now), ih (false || now), ← comp_map]
    refine congrArg (· <$> _) (funext fun (u, later) => ?_)
    simp [Bool.or_assoc]

theorem forEach_cons (a : α) : forEach step (a :: as) s = (do
    let (s, now) ← step s a
    let (s, later) ← forEach step as s
    return (s, now || later)) := by
  rw [forEach, List.foldlM_cons, bind_assoc]
  refine bind_congr fun (s, now) => ?_
  rw [pure_bind, forEach_from, map_eq_pure_bind]
  refine bind_congr fun (s, later) => ?_
  simp

theorem forEach_cons_eq_ok_iff {a : α} : forEach step (a :: as) s = .ok (t, changed) ↔
    ∃ u now later, step s a = .ok (u, now) ∧ forEach step as u = .ok (t, later) ∧
      changed = (now || later) := by
  rw [forEach_cons]
  constructor
  · intro run
    obtain ⟨⟨u, now⟩, first, run⟩ := exists_of_bind_eq_ok run
    obtain ⟨⟨v, later⟩, rest, run⟩ := exists_of_bind_eq_ok run
    cases run
    exact ⟨u, now, later, first, rest, rfl⟩
  · rintro ⟨u, now, later, first, rest, rfl⟩
    rw [first]
    simp only [bind, Except.bind, rest, pure, Except.pure]

/-- The iterations `s` and `t` differ in their states at most, not in their number. -/
structure Keeps (s t : Iteration σ) : Prop where
  frame : t = { s with before := t.before, after := t.after }
  sizes : t.before.size = s.before.size ∧ t.after.size = s.after.size

theorem keeps_refl (s : Iteration σ) : Keeps s s := ⟨rfl, rfl, rfl⟩

theorem Keeps.trans (h : Keeps s t) (k : Keeps t u) : Keeps s u := by
  refine ⟨?_, k.sizes.1.trans h.sizes.1, k.sizes.2.trans h.sizes.2⟩
  rw [k.frame, h.frame]

/-- The results tell which states there are. -/
theorem Keeps.results_sameStates_iff (h : Keeps s t) :
    t.results.SameStates s.results ↔ t = s := by
  refine ⟨fun same => ?_, fun same => same ▸ ⟨rfl, rfl⟩⟩
  have framework : t.framework = s.framework := by rw [h.frame]
  obtain ⟨before, after⟩ : t.before = s.before ∧ t.after = s.after := by
    rw [Results.SameStates, results, results, framework] at same
    cases direction : s.framework.direction with
    | forward =>
      rw [direction] at same
      exact same
    | backward =>
      rw [direction] at same
      exact same.symm
  rw [h.frame, before, after]

/-- The states at node `n`. -/
def states (s : Iteration σ) (n : Nat) : Option σ × Option σ := (s.before[n]?, s.after[n]?)

/-- The iteration `t` comes from `s` by new states at node `n`. -/
structure Writes (s : Iteration σ) (n : Nat) (t : Iteration σ) (changed : Bool) : Prop where
  keeps : Keeps s t
  elsewhere : ∀ m, m ≠ n → t.states m = s.states m
  quiet : changed = false → t = s
  loud : changed = true → t.states n ≠ s.states n

variable (writes : ∀ s a t changed, step s a = .ok (t, changed) → Writes s (key a) t changed)
include writes

theorem forEach_keeps (run : forEach step as s = .ok (t, changed)) : Keeps s t := by
  induction as generalizing s changed with
  | nil =>
    cases run
    exact keeps_refl _
  | cons a as ih =>
    obtain ⟨u, now, later, first, rest, -⟩ := forEach_cons_eq_ok_iff.1 run
    exact (writes _ _ _ _ first).keeps.trans (ih rest)

theorem forEach_elsewhere (run : forEach step as s = .ok (t, changed)) (other : n ∉ as.map key) :
    t.states n = s.states n := by
  induction as generalizing s changed with
  | nil =>
    cases run
    rfl
  | cons a as ih =>
    obtain ⟨u, now, later, first, rest, -⟩ := forEach_cons_eq_ok_iff.1 run
    rw [List.map_cons, List.mem_cons, not_or] at other
    exact (ih rest other.2).trans ((writes _ _ _ _ first).elsewhere n other.1)

/-- Where each step is at a node of its own, none undoes what an earlier one does. -/
theorem forEach_flag (nodup : (as.map key).Nodup) (run : forEach step as s = .ok (t, changed)) :
    changed = false ↔ t = s := by
  induction as generalizing s changed with
  | nil =>
    cases run
    exact ⟨fun _ => rfl, fun _ => rfl⟩
  | cons a as ih =>
    obtain ⟨u, now, later, first, rest, rfl⟩ := forEach_cons_eq_ok_iff.1 run
    rw [List.map_cons, List.nodup_cons] at nodup
    cases now with
    | false =>
      rw [Bool.false_or, ← (writes _ _ _ _ first).quiet rfl]
      exact ih nodup.2 rest
    | true =>
      rw [Bool.true_or]
      refine ⟨nofun, fun same => absurd ?_ ((writes _ _ _ _ first).loud rfl)⟩
      rw [← forEach_elsewhere writes rest nodup.1, same]

theorem forEach_quiet_iff :
    forEach step as s = .ok (s, false) ↔ ∀ a ∈ as, step s a = .ok (s, false) := by
  induction as with
  | nil => exact ⟨fun _ => nofun, fun _ => rfl⟩
  | cons a as ih =>
    rw [forEach_cons_eq_ok_iff, List.forall_mem_cons, ← ih]
    constructor
    · rintro ⟨u, now, later, first, rest, flag⟩
      obtain ⟨rfl, rfl⟩ := Bool.or_eq_false_iff.1 flag.symm
      obtain rfl := (writes _ _ _ _ first).quiet rfl
      exact ⟨first, rest⟩
    · rintro ⟨first, rest⟩
      exact ⟨s, false, false, first, rest, rfl⟩

end Loops

section Arrays

variable {α : Type} {xs : Array α} {n : Nat} {x : α}

theorem read_eq_ok_iff : read xs n = .ok x ↔ xs[n]? = some x := by
  unfold read
  cases xs[n]? <;> simp

theorem setIfInBounds_of_getElem? (h : xs[n]? = some x) : xs.setIfInBounds n x = xs := by
  obtain ⟨lt, rfl⟩ := Array.getElem?_eq_some_iff.1 h
  rw [Array.setIfInBounds_def, dif_pos lt, Array.set_getElem_self]

theorem read_sources {g : FlowGraph} {d : Direction} (lt : n < g.nodeCount) :
    read (g.nodeIds.map (g.sources d)).toArray n = .ok (g.sources d n) := by
  have listed : g.nodeIds[n]? = some n := List.getElem?_range lt
  rw [read_eq_ok_iff]
  simp [listed]

end Arrays

section Passes

variable {σ : Type} [DecidableEq σ] {s t : Iteration σ} {n : Nat} {x y : σ} {changed : Bool}

theorem store_eq_ok_iff : s.store n x y = .ok (t, changed) ↔
    ∃ x' y', s.before[n]? = some x' ∧ s.after[n]? = some y' ∧
      t = { s with before := s.before.setIfInBounds n x, after := s.after.setIfInBounds n y } ∧
      changed = (x' != x || y' != y) := by
  constructor
  · intro stored
    obtain ⟨x', before, stored⟩ := exists_of_bind_eq_ok stored
    obtain ⟨y', after, stored⟩ := exists_of_bind_eq_ok stored
    cases stored
    exact ⟨x', y', read_eq_ok_iff.1 before, read_eq_ok_iff.1 after, rfl, rfl⟩
  · rintro ⟨x', y', before, after, rfl, rfl⟩
    rw [store, read_eq_ok_iff.2 before, read_eq_ok_iff.2 after]
    rfl

/-- A store that changes nothing finds the states that it is to put. -/
theorem store_quiet_iff : s.store n x y = .ok (s, false) ↔ s.states n = (some x, some y) := by
  rw [store_eq_ok_iff, states, Prod.mk.injEq]
  constructor
  · rintro ⟨x', y', before, after, -, flag⟩
    obtain ⟨rfl, rfl⟩ : x' = x ∧ y' = y := by simpa using flag.symm
    exact ⟨before, after⟩
  · rintro ⟨before, after⟩
    refine ⟨x, y, before, after, ?_, by simp⟩
    rw [setIfInBounds_of_getElem? before, setIfInBounds_of_getElem? after]

theorem writes_of_store (stored : s.store n x y = .ok (t, changed)) : Writes s n t changed := by
  obtain ⟨x', y', before, after, rfl, rfl⟩ := store_eq_ok_iff.1 stored
  refine ⟨⟨rfl, Array.size_setIfInBounds, Array.size_setIfInBounds⟩, fun m other => ?_,
    fun flag => ?_, fun flag same => ?_⟩
  · simp only [states, Array.getElem?_setIfInBounds_ne other.symm]
  · obtain ⟨rfl, rfl⟩ : x' = x ∧ y' = y := by simpa using flag
    simp only [setIfInBounds_of_getElem? before, setIfInBounds_of_getElem? after]
  · obtain ⟨lt, -⟩ := Array.getElem?_eq_some_iff.1 before
    obtain ⟨lt', -⟩ := Array.getElem?_eq_some_iff.1 after
    simp only [states, Array.getElem?_setIfInBounds_self_of_lt lt,
      Array.getElem?_setIfInBounds_self_of_lt lt', before, after, Prod.mk.injEq,
      Option.some_inj] at same
    simp [same] at flag

/-- Evaluation leaves the states of all listed nodes as they are. -/
def Rests (s : Iteration σ) : Prop :=
  ∀ e ∈ s.order, ∃ x y, s.evaluate e.1 e.2 = .ok (x, y) ∧ s.states e.1 = (some x, some y)

theorem visit_eq_ok_iff {e : Nat × Node} : s.visit e = .ok (t, changed) ↔
    ∃ x y, s.evaluate e.1 e.2 = .ok (x, y) ∧ s.store e.1 x y = .ok (t, changed) := by
  constructor
  · intro run
    obtain ⟨⟨x, y⟩, evaluated, stored⟩ := exists_of_bind_eq_ok run
    exact ⟨x, y, evaluated, stored⟩
  · rintro ⟨x, y, evaluated, stored⟩
    rw [visit, evaluated]
    exact stored

theorem writes_of_visit (s : Iteration σ) (e : Nat × Node) (t : Iteration σ) (changed : Bool)
    (run : s.visit e = .ok (t, changed)) : Writes s e.1 t changed := by
  obtain ⟨x, y, -, stored⟩ := visit_eq_ok_iff.1 run
  exact writes_of_store stored

theorem writes_of_update (s : Iteration σ) (u : Nat × σ × σ) (t : Iteration σ) (changed : Bool)
    (run : s.store u.1 u.2.1 u.2.2 = .ok (t, changed)) : Writes s u.1 t changed :=
  writes_of_store run

theorem jacobiPass_eq_ok_iff : s.jacobiPass = .ok (t, changed) ↔ ∃ updates : List (Nat × σ × σ),
    s.order.Forall₂ (fun e u => e.1 = u.1 ∧ s.evaluate e.1 e.2 = .ok u.2) updates ∧
      forEach (fun s u => s.store u.1 u.2.1 u.2.2) updates s = .ok (t, changed) := by
  have each (e : Nat × Node) (u : Nat × σ × σ) :
      (do return (e.1, ← s.evaluate e.1 e.2)) = Except.ok u ↔
        e.1 = u.1 ∧ s.evaluate e.1 e.2 = .ok u.2 := by
    cases s.evaluate e.1 e.2 with
    | error fault => exact ⟨nofun, fun h => nomatch h.2⟩
    | ok xy => exact ⟨fun h => by cases h; exact ⟨rfl, rfl⟩, fun ⟨h, h'⟩ => by cases h'; rw [h]; rfl⟩
  simp only [← each, ← mapM_eq_ok_iff]
  constructor
  · exact exists_of_bind_eq_ok
  · rintro ⟨updates, evaluated, run⟩
    rw [jacobiPass, evaluated]
    exact run

theorem gaussSeidelPass_quiet_iff : s.gaussSeidelPass = .ok (s, false) ↔ s.Rests := by
  refine (forEach_quiet_iff writes_of_visit).trans (forall₂_congr fun e _ => ?_)
  simp only [visit_eq_ok_iff, store_quiet_iff]

theorem jacobiPass_quiet_iff : s.jacobiPass = .ok (s, false) ↔ s.Rests := by
  simp only [jacobiPass_eq_ok_iff, forEach_quiet_iff writes_of_update, store_quiet_iff]
  constructor
  · rintro ⟨updates, evaluated, quiet⟩ e mem
    obtain ⟨⟨n, x, y⟩, there, rfl, value⟩ := exists_mem_of_forall₂ evaluated mem
    exact ⟨x, y, value, quiet _ there⟩
  · intro rests
    obtain ⟨updates, evaluated⟩ : ∃ updates : List (Nat × σ × σ), s.order.Forall₂
        (fun e u => e.1 = u.1 ∧ s.evaluate e.1 e.2 = .ok u.2) updates := by
      refine exists_forall₂ fun e mem => ?_
      obtain ⟨x, y, value, -⟩ := rests e mem
      exact ⟨(e.1, x, y), rfl, value⟩
    refine ⟨updates, evaluated, fun u mem => ?_⟩
    obtain ⟨e, listed, same, value⟩ := exists_mem_of_forall₂ evaluated.flip mem
    obtain ⟨x, y, value', here⟩ := rests e listed
    rw [← same, here, Except.ok.inj (value.symm.trans value')]

theorem sweep_quiet_iff : s.sweep = .ok (s, false) ↔ s.Rests := by
  unfold sweep
  cases s.strategy with
  | gaussSeidel => exact gaussSeidelPass_quiet_iff
  | jacobi => exact jacobiPass_quiet_iff

theorem sweep_keeps (run : s.sweep = .ok (t, changed)) : Keeps s t := by
  unfold sweep at run
  split at run
  next => exact forEach_keeps writes_of_visit run
  next =>
    obtain ⟨updates, -, run⟩ := jacobiPass_eq_ok_iff.1 run
    exact forEach_keeps writes_of_update run

/-- Where no node is listed twice, the flag of a sweep says whether it changes anything. -/
theorem sweep_flag (nodup : (s.order.map Prod.fst).Nodup) (run : s.sweep = .ok (t, changed)) :
    changed = false ↔ t = s := by
  unfold sweep at run
  split at run
  next => exact forEach_flag writes_of_visit nodup run
  next =>
    obtain ⟨updates, evaluated, run⟩ := jacobiPass_eq_ok_iff.1 run
    have keys : s.order.map Prod.fst = updates.map Prod.fst := by
      rw [← List.forall₂_eq_eq_eq, List.forall₂_map_left_iff, List.forall₂_map_right_iff]
      exact evaluated.imp fun _ _ h => h.1
    exact forEach_flag writes_of_update (keys ▸ nodup) run

theorem pass_eq_ok_iff : s.pass = .ok (t, changed) ↔
    ∃ u : Iteration σ, s.sweep = .ok (u, changed) ∧ t = { u with passes := u.passes + 1 } := by
  constructor
  · intro run
    obtain ⟨⟨u, flag⟩, run, done⟩ := exists_of_bind_eq_ok run
    cases done
    exact ⟨u, run, rfl⟩
  · rintro ⟨u, run, rfl⟩
    rw [pass, run]
    rfl

/-- Passes from where all listed nodes rest change nothing. -/
theorem exists_follow_of_rests (f : Framework σ) (g : FlowGraph) (rests : s.Rests)
    (schedule : List Strategy) : ∃ u,
      (f.kind g).follow schedule s = .ok (List.replicate schedule.length false, u) ∧
        u.results.SameStates s.results := by
  induction schedule generalizing s with
  | nil => exact ⟨s, rfl, rfl, rfl⟩
  | cons strategy schedule ih =>
    let t : Iteration σ := { s with strategy := strategy, passes := s.passes + 1 }
    have quiet : (s.withStrategy strategy).pass = .ok (t, false) :=
      pass_eq_ok_iff.2 ⟨_, sweep_quiet_iff.2 rests, rfl⟩
    obtain ⟨u, followed, same⟩ := ih (s := t) rests
    refine ⟨u, ?_, same⟩
    change (s.withStrategy strategy).pass >>= _ = _
    rw [quiet]
    simp only [bind, Except.bind, followed]
    rfl

theorem exact (f : Framework σ) {g : FlowGraph} {d : Direction}
    (order : s.order = (g.listing d).nodes) : (f.kind g).Exact g d s := by
  have once : s.order.map Prod.fst = g.visitOrder d := order ▸ FlowGraph.map_fst_listing
  have nodup : (s.order.map Prod.fst).Nodup := once ▸ FlowGraph.nodup_visitOrder
  have flag {t changed} (passed : s.pass = .ok (t, changed)) :
      changed = false ↔ t.results.SameStates s.results := by
    obtain ⟨u, run, rfl⟩ := pass_eq_ok_iff.1 passed
    exact (sweep_flag nodup run).trans (sweep_keeps run).results_sameStates_iff.symm
  refine ⟨nodup, fun n => ?_, fun t changed => flag, ?_⟩
  · change n ∈ s.order.map Prod.fst ↔ _
    rw [once, FlowGraph.mem_visitOrder_iff]
  · intro t passed schedule
    obtain ⟨u, run, rfl⟩ := pass_eq_ok_iff.1 passed
    obtain rfl := (sweep_flag nodup run).1 rfl
    have rests : u.Rests := sweep_quiet_iff.1 run
    exact exists_follow_of_rests f g (s := { u with passes := u.passes + 1 }) rests schedule

end Passes
end Iteration
end FlowAnalysis
