import FlowAnalysis.Proofs.Analysis.Carried
import FlowAnalysis.Proofs.FirstOccurrence

/-!
Parts of a graph that facts flow through before they reach any other node. Main statement: an
analysis of the whole graph finds at the nodes of such a part, in the same order, the facts that it
finds in the part alone.
-/
namespace FlowAnalysis

/-- Node `n` of `g`, if it is `inside`, stands at `place n` in `h`, and all that flows to it there
flows to it in `g`, from nodes inside. -/
structure FlowGraph.Part (d : Direction) (inside : Nat → Prop) (place : Nat → Nat)
    (g h : FlowGraph) : Prop where
  injective : ∀ m n, place m = place n → m = n
  boundary : h.boundaryNode d = place (g.boundaryNode d)
  closed : ∀ m n, inside n → g.Feeds d m n → inside m
  feeds : ∀ a n, inside n → (h.Feeds d a (place n) ↔ ∃ m, a = place m ∧ g.Feeds d m n)

namespace FlowGraph.Part

variable {d : Direction} {inside : Nat → Prop} {place : Nat → Nat} {g h : FlowGraph}
  (part : Part d inside place g h) {n : Nat} {ns ms : List Nat}
include part

/-- Facts come to a node inside through nodes inside. -/
theorem inside_of_flowWalk (hn : inside n) (walk : g.FlowWalk d ns n) : ∀ m ∈ ns, inside m := by
  induction walk with
  | stay => simp
  | @step ns m n walk feeds ih =>
    have hm := part.closed m n hn feeds
    exact List.forall_mem_append.2 ⟨ih hm, List.forall_mem_singleton.2 hm⟩

/-- The walks to the place of a node are those to the node, each of their nodes at its place. -/
theorem flowWalk_iff (hn : inside n) :
    h.FlowWalk d ms (place n) ↔ ∃ ns, ms = ns.map place ∧ g.FlowWalk d ns n := by
  constructor
  · intro walk
    induction ms using List.reverseRecOn generalizing n with
    | nil =>
      have same := Walk.nil_iff.1 walk
      rw [part.boundary] at same
      obtain rfl := part.injective _ _ same
      exact ⟨[], rfl, Walk.stay⟩
    | append_singleton ms a ih =>
      obtain ⟨first, last⟩ := Walk.concat_iff.1 walk
      obtain ⟨m, rfl, feeds⟩ := (part.feeds a n hn).1 last
      obtain ⟨ns, rfl, reached⟩ := ih (part.closed m n hn feeds) first
      exact ⟨ns ++ [m], by simp, reached.step feeds⟩
  · rintro ⟨ns, rfl, walk⟩
    induction walk with
    | stay =>
      rw [List.map_nil, FlowWalk, part.boundary]
      exact Walk.stay
    | @step ns m n walk feeds ih =>
      rw [List.map_append]
      exact (ih (part.closed m n hn feeds)).step ((part.feeds _ n hn).2 ⟨m, rfl, feeds⟩)

end FlowGraph.Part

namespace Analysis

/-- At the places of the nodes inside, `b` generates and kills the facts that `a` does at the nodes.
It may know of more facts, but generates none of them there. -/
structure Part {α : Type} (inside : Nat → Prop) (place : Nat → Nat) (a b : Analysis α) : Prop where
  direction : b.direction = a.direction
  confluence : b.confluence = a.confluence
  facts : a.facts.Sublist b.facts
  nodup : b.facts.Nodup
  known : ∀ n x, x ∈ a.genAt n → x ∈ a.facts
  gen : ∀ n x, inside n → (x ∈ b.genAt (place n) ↔ x ∈ a.genAt n)
  kill : ∀ n x, inside n → x ∈ a.facts → (x ∈ b.killAt (place n) ↔ x ∈ a.killAt n)

namespace Part

variable {α : Type} {inside : Nat → Prop} {place : Nat → Nat} {a b : Analysis α}
  (part : Part inside place a b) {x : α} {ns : List Nat}
include part

theorem carries_iff (hx : x ∈ a.facts) (hns : ∀ n ∈ ns, inside n) :
    b.Carries (ns.map place) x ↔ a.Carries ns x := by
  induction ns using List.reverseRecOn with
  | nil => simp [not_carries_nil]
  | append_singleton ns n ih =>
    obtain ⟨before, last⟩ := List.forall_mem_append.1 hns
    have hn : inside n := List.forall_mem_singleton.1 last
    rw [List.map_append, List.map_singleton, carries_concat, carries_concat, part.gen n x hn,
      part.kill n x hn hx, ih before]

/-- Through the part are carried facts of the part alone. -/
theorem known_of_carries (hns : ∀ n ∈ ns, inside n) (h : b.Carries (ns.map place) x) :
    x ∈ a.facts := by
  obtain ⟨pre, m, post, whole, gen, -⟩ := h
  have mem : m ∈ ns.map place := by simp [whole]
  obtain ⟨n, hn, rfl⟩ := List.mem_map.1 mem
  exact part.known n x ((part.gen n x (hns n hn)).1 gen)

variable [DecidableEq α] {g h : FlowGraph} {v : Valuation a.problem.size}
  {w : Valuation b.problem.size} {n : Nat}
  (graphs : FlowGraph.Part a.direction inside place g h) (walksPart : a.problem.OverWalks g v)
  (walksWhole : b.problem.OverWalks h w) (hn : inside n)
  (reached : g.Participates a.direction n) (reachedWhole : h.Participates b.direction (place n))
include graphs walksPart walksWhole hn reached reachedWhole

theorem mem_holding_before_iff :
    x ∈ b.holding (.ofBits (w.before (place n))) ↔ x ∈ a.holding (.ofBits (v.before n)) := by
  have walks : ∀ ms, h.FlowWalk b.direction ms (place n) ↔
      ∃ ns, ms = ns.map place ∧ g.FlowWalk a.direction ns n := by
    intro ms
    rw [part.direction]
    exact graphs.flowWalk_iff hn
  rw [mem_holding_before walksWhole reachedWhole, mem_holding_before walksPart reached]
  simp only [walks, part.confluence, Confluence.across_map]
  have same : x ∈ a.facts →
      (a.confluence.Across (g.FlowWalk a.direction · n) (fun ns => b.Carries (ns.map place) x) ↔
        a.confluence.Across (g.FlowWalk a.direction · n) (a.Carries · x)) := fun hx =>
    Confluence.across_congr fun ns walk => part.carries_iff hx (graphs.inside_of_flowWalk hn walk)
  constructor
  · rintro ⟨-, told⟩
    obtain ⟨ns, walk, carried⟩ := told.exists (FlowGraph.participates_iff.1 reached).2
    have hx := part.known_of_carries (graphs.inside_of_flowWalk hn walk) carried
    exact ⟨hx, (same hx).1 told⟩
  · intro ⟨hx, told⟩
    exact ⟨part.facts.subset hx, (same hx).2 told⟩

theorem holding_before_eq :
    b.holding (.ofBits (w.before (place n))) = a.holding (.ofBits (v.before n)) :=
  eq_of_sublist_of_mem_iff part.nodup (holding_sublist _)
    ((holding_sublist _).trans part.facts) fun _ =>
      part.mem_holding_before_iff graphs walksPart walksWhole hn reached reachedWhole

theorem holding_after_eq :
    b.holding (.ofBits (w.after (place n))) = a.holding (.ofBits (v.after n)) := by
  refine eq_of_sublist_of_mem_iff part.nodup (holding_sublist _)
    ((holding_sublist _).trans part.facts) fun x => ?_
  have before := part.mem_holding_before_iff (x := x) graphs walksPart walksWhole hn reached
    reachedWhole
  rw [mem_holding_after walksWhole reachedWhole, mem_holding_after walksPart reached, before,
    part.gen n x hn]
  constructor
  · rintro ⟨-, gen | keep⟩
    · exact ⟨part.known n x gen, Or.inl gen⟩
    · have hx := (holding_sublist _).subset keep.1
      exact ⟨hx, Or.inr ⟨keep.1, fun kill => keep.2 ((part.kill n x hn hx).2 kill)⟩⟩
  · rintro ⟨hx, told⟩
    refine ⟨part.facts.subset hx, told.imp_right fun keep => ⟨keep.1, fun kill => keep.2 ?_⟩⟩
    exact (part.kill n x hn hx).1 kill

end Part
end Analysis
end FlowAnalysis
