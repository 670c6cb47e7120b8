import FlowAnalysis.Proofs.Digraph.Postorder
import FlowAnalysis.Proofs.DirectWalk
import FlowAnalysis.Proofs.Solver.MeetOverWalks

/-!
How fast facts travel in Gauss-Seidel passes: one pass takes them along all steps that follow the
order, and each other step costs one more pass. Main statement: if direct walks take no more than a
given number of other steps, then that many passes and two more suffice.
-/
namespace FlowAnalysis
namespace GenKill

variable {p : GenKill} {g : FlowGraph} {v : Valuation p.size} {order ns mid : List Nat}
  {i k l m n depth : Nat}

/-- What is told before node `n` of bit `i` is told after it. -/
def Keeps (p : GenKill) (i n : Nat) : Prop :=
  ∀ x, p.confluence.Tells x i → p.confluence.Tells (p.transfer n x) i

/-- Bit `i` is told after node `n`, whatever is told before it. -/
def Makes (p : GenKill) (i n : Nat) : Prop := ∀ x, p.confluence.Tells (p.transfer n x) i

/-- What is told along a list of nodes is made at one of them, or told at the start, and kept by all
that follow. -/
theorem kept_of_tells_along {x : BitVec p.size} (h : p.confluence.Tells (p.along ns x) i) :
    (p.confluence.Tells x i ∧ ∀ n ∈ ns, p.Keeps i n) ∨
      ∃ pre m mid, ns = pre ++ m :: mid ∧ p.Makes i m ∧ ∀ n ∈ mid, p.Keeps i n := by
  induction ns using List.reverseRecOn with
  | nil => exact Or.inl ⟨h, by simp⟩
  | append_singleton ns n ih =>
    rw [along_concat] at h
    obtain always | ⟨told, keep⟩ := tells_transfer h
    · exact Or.inr ⟨ns, n, [], rfl, always, by simp⟩
    · have later : ∀ {ms : List Nat}, (∀ k ∈ ms, p.Keeps i k) → ∀ k ∈ ms ++ [n], p.Keeps i k :=
        fun all => List.forall_mem_append.2 ⟨all, List.forall_mem_singleton.2 keep⟩
      obtain ⟨start, all⟩ | ⟨pre, m, mid, rfl, makes, all⟩ := ih told
      · exact Or.inl ⟨start, later all⟩
      · exact Or.inr ⟨pre, m, mid ++ [n], by simp, makes, later all⟩

/-- In a Gauss-Seidel pass, facts travel along the order. -/
theorem tells_before_of_precedes (nodup : order.Nodup) (feeds : g.Feeds p.direction m n)
    (first : Precedes order m n)
    (told : p.confluence.Tells ((p.sweep g .gaussSeidel order v).after m) i) :
    p.confluence.Tells ((p.sweep g .gaussSeidel order v).before n) i := by
  obtain ⟨pre, post, rfl, mem⟩ := first
  have fresh : m ∉ n :: post := fun later =>
    (List.nodup_append.1 nodup).2.2 m mem m later rfl
  rw [(sweep_sameAt_image nodup).1]
  refine tells_inState.2 (Or.inr (Or.inl ⟨m, feeds, ?_⟩))
  rw [sweep, sweepFrom_append, (sweepFrom_sameAt fresh).2] at told
  exact told

section Run

variable (top : p.initial = p.confluence.top p.size)
  (visits : ∀ n, n ∈ order ↔ g.Participates p.direction n) (nodup : order.Nodup)
  (start : ∀ n i, ¬ p.Moved (v.after n) i)

include top visits nodup start

theorem tells_before_succ (hn : n ∈ order) (feeds : g.Feeds p.direction m n)
    (told : p.confluence.Tells ((p.sweeps g (fun _ => .gaussSeidel) order v k).after m) i) :
    p.confluence.Tells ((p.sweeps g (fun _ => .gaussSeidel) order v (k + 1)).before n) i := by
  obtain ⟨s, now, seen, -⟩ := exists_seen_sweeps visits nodup start (fun _ => .gaussSeidel) k hn
  rw [now.1]
  refine tells_inState.2 (Or.inr (Or.inl ⟨m, feeds, ?_⟩))
  exact (moved_iff_tells top).1 (seen m i ((moved_iff_tells top).2 told))

/-- From the first pass on, what is told before a node stays told. -/
theorem tells_before_mono (hn : n ∈ order) (le : k ≤ l)
    (told : p.confluence.Tells ((p.sweeps g (fun _ => .gaussSeidel) order v (k + 1)).before n) i) :
    p.confluence.Tells ((p.sweeps g (fun _ => .gaussSeidel) order v (l + 1)).before n) i := by
  induction l, le using Nat.le_induction with
  | base => exact told
  | succ l _ ih =>
    exact (moved_iff_tells top).1
      (moved_before_sweeps visits nodup start hn ((moved_iff_tells top).2 ih))

omit top in
theorem tells_before_boundary (hn : n ∈ order) (inner : n = g.boundaryNode p.direction)
    (told : p.confluence.Tells p.boundary i) :
    p.confluence.Tells ((p.sweeps g (fun _ => .gaussSeidel) order v (k + 1)).before n) i := by
  obtain ⟨s, now, -⟩ := exists_seen_sweeps visits nodup start (fun _ => .gaussSeidel) k hn
  rw [now.1]
  exact tells_inState.2 (Or.inl ⟨inner, told⟩)

variable {late : Nat → Nat → Prop} [DecidableRel late]
  (forth : ∀ m n, g.Feeds p.direction m n → Precedes order m n ∨ late m n)
include forth

/-- A late step takes one more pass. -/
theorem tells_step (hn : n ∈ order) (feeds : g.Feeds p.direction m n)
    (told : p.confluence.Tells ((p.sweeps g (fun _ => .gaussSeidel) order v (k + 1)).after m) i) :
    p.confluence.Tells ((p.sweeps g (fun _ => .gaussSeidel) order v
      (k + (if late m n then 1 else 0) + 1)).before n) i := by
  split
  next => exact tells_before_succ top visits nodup start hn feeds told
  next early =>
    exact tells_before_of_precedes nodup feeds ((forth m n feeds).resolve_right early) told

/-- Along a walk that keeps a bit, the bit takes as many passes as there are late steps, and one. -/
theorem tells_walk (hm : m ∈ order) (walk : Walk (g.Feeds p.direction) m (m :: mid) n)
    (keep : ∀ k ∈ mid, p.Keeps i k)
    (told : p.confluence.Tells ((p.sweeps g (fun _ => .gaussSeidel) order v (k + 1)).after m) i) :
    p.confluence.Tells ((p.sweeps g (fun _ => .gaussSeidel) order v
      (k + laps late (m :: mid ++ [n]) + 1)).before n) i := by
  induction mid generalizing m k with
  | nil =>
    obtain ⟨-, c, feeds, rest⟩ := Walk.cons_iff.1 walk
    obtain rfl := Walk.nil_iff.1 rest
    have hn := (visits n).2 (feeds.participates ((visits m).1 hm))
    have step := tells_step top visits nodup start forth hn feeds told
    simpa [laps, strides, List.countP_cons] using step
  | cons c mid ih =>
    obtain ⟨-, c, feeds, rest⟩ := Walk.cons_iff.1 walk
    obtain ⟨rfl, -⟩ := Walk.cons_iff.1 rest
    obtain ⟨here, keep⟩ := List.forall_mem_cons.1 keep
    have hc := (visits c).2 (feeds.participates ((visits m).1 hm))
    have step := tells_step top visits nodup start forth hc feeds told
    have after := here _ step
    rw [← after_sweeps nodup hc] at after
    have onward := ih hc rest keep after
    rwa [List.cons_append, List.cons_append, laps_cons_cons, Nat.add_comm (laps _ _),
      ← Nat.add_assoc]

variable (few : ∀ m mid n, Direct (g.Feeds p.direction) m mid n →
  laps late (m :: mid ++ [n]) ≤ depth)
include few

/-- Every bit has come by a direct walk. -/
theorem tells_within (hm : m ∈ order) (walk : Walk (g.Feeds p.direction) m (m :: mid) n)
    (keep : ∀ k ∈ mid, p.Keeps i k)
    (told : p.confluence.Tells ((p.sweeps g (fun _ => .gaussSeidel) order v 1).after m) i) :
    p.confluence.Tells ((p.sweeps g (fun _ => .gaussSeidel) order v (depth + 1)).before n) i := by
  obtain ⟨short, direct, sub⟩ := walk.direct
  have hn := (visits n).2 (walk.keeps (fun _ _ feeds => feeds.participates) ((visits m).1 hm))
  have arrived := tells_walk top visits nodup start forth hm direct.walk
    (fun k hk => keep k (sub hk)) (k := 0) told
  rw [Nat.zero_add] at arrived
  exact tells_before_mono top visits nodup start hn (few m short n direct) arrived

/-- What walks tell is told after as many passes as a direct walk has late steps, and one. -/
theorem tells_of_along (hn : n ∈ order) (walk : g.FlowWalk p.direction ns n)
    (told : p.confluence.Tells (p.along ns p.boundary) i) :
    p.confluence.Tells ((p.sweeps g (fun _ => .gaussSeidel) order v (depth + 1)).before n) i := by
  obtain ⟨boundary, keep⟩ | ⟨pre, m, mid, rfl, makes, keep⟩ := kept_of_tells_along told
  · cases ns with
    | nil =>
      obtain rfl := Walk.nil_iff.1 walk
      exact tells_before_boundary visits nodup start hn rfl boundary
    | cons m mid =>
      obtain ⟨rfl, c, feeds, -⟩ := Walk.cons_iff.1 walk
      obtain ⟨here, keep⟩ := List.forall_mem_cons.1 keep
      have hm := (visits _).2 (FlowGraph.participates_iff.2 ⟨feeds.lt.1, [], Walk.stay⟩)
      have after := here _ (tells_before_boundary visits nodup start (k := 0) hm rfl boundary)
      rw [← after_sweeps nodup hm] at after
      exact tells_within top visits nodup start forth few hm walk keep after
  · obtain ⟨first, second⟩ := Walk.split_iff.1 walk
    obtain ⟨-, c, feeds, -⟩ := Walk.cons_iff.1 second
    have hm := (visits m).2 (FlowGraph.participates_iff.2 ⟨feeds.lt.1, pre, first⟩)
    have after := makes ((p.sweeps g (fun _ => .gaussSeidel) order v 1).before m)
    rw [← after_sweeps nodup hm] at after
    exact tells_within top visits nodup start forth few hm second keep after

end Run

/-- From the top, Gauss-Seidel passes that follow the flow, except at late steps, come to rest after
as many passes as direct walks have late steps, and one. -/
theorem FirstQuiet.le_of_laps (top : p.initial = p.confluence.top p.size)
    {late : Nat → Nat → Prop} [DecidableRel late]
    (forth : ∀ m n, g.Feeds p.direction m n → Precedes (g.visitOrder p.direction) m n ∨ late m n)
    (few : ∀ m mid n, Direct (g.Feeds p.direction) m mid n →
      laps late (m :: mid ++ [n]) ≤ depth)
    (h : p.FirstQuiet g (fun _ => .gaussSeidel) (g.visitOrder p.direction)
      (p.initialValuation g) k) :
    k ≤ depth + 1 := by
  have visits := FlowGraph.mem_visitOrder_iff (g := g) (d := p.direction)
  have nodup : (g.visitOrder p.direction).Nodup := FlowGraph.nodup_visitOrder
  have start := not_moved_initialValuation (p := p) (g := g)
  let w := p.sweeps g (fun _ => .gaussSeidel) (g.visitOrder p.direction) (p.initialValuation g)
  have supported : p.Supported g (w (depth + 2)) :=
    sweeps_induction (supported_initialValuation top) fun u v n hn =>
      supported_patch ((visits n).1 hn)
  -- what the next pass tells, some walk tells, so it is told already
  have same : ∀ n ∈ g.visitOrder p.direction, (w (depth + 1)).SameAt (w (depth + 2)) n := by
    intro n hn
    have before : (w (depth + 1)).before n = (w (depth + 2)).before n := by
      refine Confluence.ext_tells (c := p.confluence) fun i => ⟨?_, fun told => ?_⟩
      · exact tells_before_mono top visits nodup start hn (Nat.le_succ depth)
      · obtain ⟨ns, walk, told⟩ := (supported n i).1 told
        exact tells_of_along top visits nodup start forth few hn walk told
    refine ⟨before, ?_⟩
    exact (after_sweeps nodup hn).trans
      ((congrArg (p.transfer n) before).trans (after_sweeps nodup hn).symm)
  apply Nat.le_of_not_lt
  intro lt
  have loud := h.loud (depth + 1) lt
  rw [changes, differs_eq_false_iff.2 same] at loud
  cases loud

end GenKill
end FlowAnalysis
