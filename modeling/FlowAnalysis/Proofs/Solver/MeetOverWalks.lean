import FlowAnalysis.Proofs.Solver.Settling

/-!
The meet over all walks. Main statement: a solver that starts at the top computes before each
participant the meet, over all walks to it from the boundary node, of what the transfers along the
walk make of the boundary value; and these states are the greatest solution of the data flow
equations.
-/
namespace FlowAnalysis
namespace GenKill

variable {p : GenKill} {g : FlowGraph} {u v w : Valuation p.size} {ns : List Nat} {n i : Nat}

/-- What the facts `x` become through the nodes `ns`, one after the other. -/
def along (p : GenKill) (ns : List Nat) (x : BitVec p.size) : BitVec p.size :=
  ns.foldl (fun x n => p.transfer n x) x

@[simp] theorem along_nil {x : BitVec p.size} : p.along [] x = x := rfl

@[simp] theorem along_concat {x : BitVec p.size} :
    p.along (ns ++ [n]) x = p.transfer n (p.along ns x) := by
  rw [along, List.foldl_append]
  rfl

/-- What `v` tells, some walk from the boundary node tells. -/
def Supported (p : GenKill) (g : FlowGraph) (v : Valuation p.size) : Prop :=
  ∀ n i, (p.confluence.Tells (v.before n) i →
      ∃ ns, g.FlowWalk p.direction ns n ∧ p.confluence.Tells (p.along ns p.boundary) i) ∧
    (p.confluence.Tells (v.after n) i →
      ∃ ns, g.FlowWalk p.direction ns n ∧ p.confluence.Tells (p.along (ns ++ [n]) p.boundary) i)

theorem supported_initialValuation (top : p.initial = p.confluence.top p.size) :
    p.Supported g (p.initialValuation g) := by
  intro n i
  constructor
  · intro told
    obtain ⟨rfl, boundary⟩ := (tells_initialValuation top).1 told
    exact ⟨[], Walk.stay, boundary⟩
  · intro told
    exact absurd told (tells_initialValuation top).2

/-- The evaluation of a participant is supported by the walks to its sources. -/
theorem supported_image (hn : g.Participates p.direction n) (hv : p.Supported g v) (i : Nat) :
    (p.confluence.Tells ((p.image g v).before n) i →
      ∃ ns, g.FlowWalk p.direction ns n ∧ p.confluence.Tells (p.along ns p.boundary) i) ∧
    (p.confluence.Tells ((p.image g v).after n) i →
      ∃ ns, g.FlowWalk p.direction ns n ∧
        p.confluence.Tells (p.along (ns ++ [n]) p.boundary) i) := by
  have before : p.confluence.Tells (p.inState g v n) i →
      ∃ ns, g.FlowWalk p.direction ns n ∧ p.confluence.Tells (p.along ns p.boundary) i := by
    intro told
    rw [tells_inState] at told
    obtain ⟨rfl, boundary⟩ | ⟨m, feeds, told⟩ | ⟨-, told⟩ := told
    · exact ⟨[], Walk.stay, boundary⟩
    · obtain ⟨ns, walk, told⟩ := (hv m i).2 told
      exact ⟨ns ++ [m], walk.step feeds, told⟩
    · exact (hv n i).1 told
  refine ⟨before, fun told => ?_⟩
  cases tells_transfer told with
  | inl always =>
    obtain ⟨-, ns, walk⟩ := FlowGraph.participates_iff.1 hn
    exact ⟨ns, walk, along_concat ▸ always _⟩
  | inr through =>
    obtain ⟨ns, walk, told⟩ := before through.1
    exact ⟨ns, walk, along_concat ▸ through.2 _ told⟩

theorem supported_patch (hn : g.Participates p.direction n) (hu : p.Supported g u)
    (hv : p.Supported g v) : p.Supported g (v.patch n (p.image g u)) := by
  intro m i
  by_cases same : m = n
  · subst same
    rw [Valuation.patch_sameAt.1, Valuation.patch_sameAt.2]
    exact supported_image hn hu i
  · rw [(Valuation.patch_sameAt_of_ne same).1, (Valuation.patch_sameAt_of_ne same).2]
    exact hv m i

/-- A family of states that tells what flows in also tells what walks tell. -/
theorem tells_of_walk {b : Nat → BitVec p.size}
    (start : g.boundaryNode p.direction < g.nodeCount → ∀ i, p.confluence.Tells p.boundary i →
      p.confluence.Tells (b (g.boundaryNode p.direction)) i)
    (feed : ∀ m n i, g.Feeds p.direction m n → g.Participates p.direction m →
      p.confluence.Tells (p.transfer m (b m)) i → p.confluence.Tells (b n) i)
    (inside : n < g.nodeCount) (walk : g.FlowWalk p.direction ns n)
    (told : p.confluence.Tells (p.along ns p.boundary) i) : p.confluence.Tells (b n) i := by
  induction walk generalizing i with
  | stay => exact start inside i told
  | @step ns m n walk feeds ih =>
    rw [along_concat] at told
    have participates := FlowGraph.participates_iff.2 ⟨feeds.lt.1, ns, walk⟩
    exact feed m n i feeds participates (tells_transfer_mono (ih feeds.lt.1) told)

/-- The states that the walks give: at the top where no walk leads, and elsewhere what some walk
from the boundary node tells, and its transfer. -/
structure OverWalks (p : GenKill) (g : FlowGraph) (v : Valuation p.size) : Prop where
  idle : ∀ n < g.nodeCount, ¬ g.Participates p.direction n →
    v.before n = p.confluence.top p.size ∧ v.after n = p.confluence.top p.size
  before : ∀ n, g.Participates p.direction n → ∀ i, p.confluence.Tells (v.before n) i ↔
    ∃ ns, g.FlowWalk p.direction ns n ∧ p.confluence.Tells (p.along ns p.boundary) i
  after : ∀ n, g.Participates p.direction n → v.after n = p.transfer n (v.before n)

/-- The solver computes the states that the walks give. -/
theorem solve_overWalks (strategy : Strategy) (top : p.initial = p.confluence.top p.size) :
    ∃ r v, ((Solver.new g p).withStrategy strategy).solve = .ok r ∧
      r.Shows g.nodeCount p.direction v ∧ p.OverWalks g v := by
  obtain ⟨r, v, solved, shows, ⟨supported, untouched⟩, settled⟩ :=
    Solver.solve_settles (g := g) (p := p) strategy
      (P := fun v => p.Supported g v ∧
        ∀ n, ¬ g.Participates p.direction n → v.SameAt (p.initialValuation g) n)
      ⟨supported_initialValuation top, fun _ _ => Valuation.sameAt_refl⟩
      (fun u w n hn hu hw => ⟨supported_patch hn hu.1 hw.1, fun m hm =>
        have other : m ≠ n := fun same => hm (same ▸ hn)
        (Valuation.patch_sameAt_of_ne other).trans (hw.2 m hm)⟩)
  refine ⟨r, v, solved, shows, ?_, ?_, ?_⟩
  · intro n lt idle
    obtain ⟨before, after⟩ := untouched n idle
    obtain ⟨startBefore, startAfter⟩ := initialValuation_of_idle lt idle
    exact ⟨before.trans (startBefore.trans top), after.trans (startAfter.trans top)⟩
  · intro n hn i
    refine ⟨(supported n i).1, fun along => ?_⟩
    obtain ⟨ns, walk, told⟩ := along
    refine tells_of_walk (b := v.before) ?_ ?_ (FlowGraph.participates_iff.1 hn).1 walk told
    · intro inside i told
      rw [(settled _ (FlowGraph.participates_boundaryNode inside)).1]
      exact tells_inState.2 (Or.inl ⟨rfl, told⟩)
    · intro m n i feeds hm told
      rw [(settled n (feeds.participates hm)).1]
      refine tells_inState.2 (Or.inr (Or.inl ⟨m, feeds, ?_⟩))
      rwa [(settled m hm).2, after_image, ← (settled m hm).1]
  · intro n hn
    rw [(settled n hn).2, after_image, ← (settled n hn).1]

/-- The data flow equations: the state before a participant is the meet of all that flows in, and
the state after it is the transfer of that. -/
structure Solves (p : GenKill) (g : FlowGraph) (v : Valuation p.size) : Prop where
  before : ∀ n, g.Participates p.direction n → p.confluence.IsMeet
    (fun x => n = g.boundaryNode p.direction ∧ x = p.boundary ∨
      ∃ m, g.Feeds p.direction m n ∧ x = v.after m) (v.before n)
  after : ∀ n, g.Participates p.direction n → v.after n = p.transfer n (v.before n)

theorem OverWalks.solves (h : p.OverWalks g v) : p.Solves g v where
  after := h.after
  before := by
    intro n hn
    apply Confluence.isMeet_of_tells
    intro i
    rw [h.before n hn]
    constructor
    · rintro ⟨ns, walk, told⟩
      cases walk with
      | stay => exact ⟨_, Or.inl ⟨rfl, rfl⟩, told⟩
      | @step ns m _ walk feeds =>
        have hm := FlowGraph.participates_iff.2 ⟨feeds.lt.1, ns, walk⟩
        refine ⟨_, Or.inr ⟨m, feeds, rfl⟩, ?_⟩
        rw [along_concat] at told
        rw [h.after m hm]
        exact tells_transfer_mono (fun told => (h.before m hm i).2 ⟨ns, walk, told⟩) told
    · rintro ⟨x, ⟨rfl, rfl⟩ | ⟨m, feeds, rfl⟩, told⟩
      · exact ⟨[], Walk.stay, told⟩
      · by_cases hm : g.Participates p.direction m
        · rw [h.after m hm] at told
          cases tells_transfer told with
          | inl always =>
            obtain ⟨-, ns, walk⟩ := FlowGraph.participates_iff.1 hm
            exact ⟨_, walk.step feeds, along_concat ▸ always _⟩
          | inr through =>
            obtain ⟨ns, walk, told⟩ := (h.before m hm i).1 through.1
            exact ⟨_, walk.step feeds, along_concat ▸ through.2 _ told⟩
        · rw [(h.idle m feeds.lt.1 hm).2] at told
          exact absurd told Confluence.not_tells_top

/-- Whatever it has at idle nodes, a solution of the equations is below the states of the walks. -/
theorem OverWalks.greatest (h : p.OverWalks g v) (hw : p.Solves g w) (lt : n < g.nodeCount) :
    w.BelowAt p.confluence v n := by
  by_cases hn : g.Participates p.direction n
  · have before : ∀ i, p.confluence.Tells (v.before n) i → p.confluence.Tells (w.before n) i := by
      intro i told
      obtain ⟨ns, walk, told⟩ := (h.before n hn i).1 told
      refine tells_of_walk (b := w.before) ?_ ?_ lt walk told
      · intro inside i told
        have hb := FlowGraph.participates_boundaryNode inside
        exact Confluence.below_iff.1 ((hw.before _ hb).below _ (Or.inl ⟨rfl, rfl⟩)) i told
      · intro m n i feeds hm told
        rw [← hw.after m hm] at told
        have hn := feeds.participates hm
        exact Confluence.below_iff.1 ((hw.before n hn).below _ (Or.inr ⟨m, feeds, rfl⟩)) i told
    intro i
    refine ⟨before i, ?_⟩
    rw [h.after n hn, hw.after n hn]
    exact tells_transfer_mono (before i)
  · intro i
    rw [(h.idle n lt hn).1, (h.idle n lt hn).2]
    exact ⟨fun told => absurd told Confluence.not_tells_top,
      fun told => absurd told Confluence.not_tells_top⟩

/-- Node zero generates the second of two facts, node one kills the first, and node three, which is
dead, generates it. -/
def selfLoop (d : Direction) (c : Confluence) : GenKill where
  direction := d
  confluence := c
  size := 2
  boundary := 1#2
  initial := c.top 2
  gen := #[2#2, 0#2, 0#2, 1#2]
  kill := #[0#2, 1#2, 0#2, 0#2]

/-- Two edges lead from the entry to a node with a loop of its own, and one from there to the exit,
where the dead node leads as well. -/
def selfLoopGraph : FlowGraph where
  graph := .ofEdges
    #[⟨.stmt 1, .skip⟩, ⟨.stmt 2, .skip⟩, ⟨.exit, .exit⟩, ⟨.stmt 3, .skip⟩]
    #[⟨0, 1, .whenTrue⟩, ⟨0, 1, .whenFalse⟩, ⟨1, 1, .back⟩, ⟨1, 2, .whenFalse⟩,
      ⟨3, 2, .sequential⟩] (by decide)
  entry := 0
  exit := 2
  exit_lt := by decide

end GenKill
end FlowAnalysis
