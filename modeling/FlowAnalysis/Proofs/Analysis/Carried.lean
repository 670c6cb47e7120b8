import FlowAnalysis.Analysis
import FlowAnalysis.Proofs.Solver.MeetOverWalks

/-!
Facts carried along walks: generated at a node and killed at none after it. Main statement: a solved
analysis holds before a node the facts that are carried to it along some walk, or along every walk,
as its facts meet.
-/
namespace FlowAnalysis
namespace Analysis

variable {α : Type} {a : Analysis α} {g : FlowGraph} {x : α} {n m i : Nat} {ns : List Nat}

def genAt (a : Analysis α) (n : Nat) : List α := a.gen[n]?.getD []

def killAt (a : Analysis α) (n : Nat) : List α := a.kill[n]?.getD []

/-- Sets given for each node of a graph hold, at a node's number, what they hold for the node. -/
theorem mem_getD_nodes {xss : List (List α)} {f : Node → List α} (h : xss[n]? = (g.node? n).map f) :
    x ∈ xss[n]?.getD [] ↔ ∃ node, g.node? n = some node ∧ x ∈ f node := by
  rw [h]
  cases g.node? n with
  | none => simp
  | some node => simp

/-- A node of `ns` generates `x`, and no later one kills it. -/
def Carries (a : Analysis α) (ns : List Nat) (x : α) : Prop :=
  ∃ pre m post, ns = pre ++ m :: post ∧ x ∈ a.genAt m ∧ ∀ k ∈ post, x ∉ a.killAt k

theorem not_carries_nil : ¬ a.Carries [] x := by
  intro ⟨pre, m, post, whole, _⟩
  simp at whole

theorem carries_concat :
    a.Carries (ns ++ [m]) x ↔ x ∈ a.genAt m ∨ a.Carries ns x ∧ x ∉ a.killAt m := by
  constructor
  · intro ⟨pre, k, post, whole, gen, keep⟩
    cases post using List.reverseRecOn with
    | nil =>
      obtain ⟨-, last⟩ := List.append_inj' whole rfl
      obtain rfl : m = k := by simpa using last
      exact Or.inl gen
    | append_singleton post l =>
      obtain ⟨rfl, last⟩ :=
        List.append_inj' (show ns ++ [m] = (pre ++ k :: post) ++ [l] by simpa using whole) rfl
      obtain rfl : m = l := by simpa using last
      refine Or.inr ⟨⟨pre, k, post, rfl, gen, fun j hj => keep j ?_⟩, keep m ?_⟩
      · exact List.mem_append_left _ hj
      · exact List.mem_append_right _ (List.mem_singleton_self m)
  · intro told
    cases told with
    | inl gen => exact ⟨ns, m, [], rfl, gen, by simp⟩
    | inr told =>
      obtain ⟨⟨pre, k, post, rfl, gen, keep⟩, last⟩ := told
      refine ⟨pre, k, post ++ [m], by simp, gen, fun j hj => ?_⟩
      cases List.mem_append.1 hj with
      | inl hj => exact keep j hj
      | inr hj => exact List.mem_singleton.1 hj ▸ last

/-- A fact that a walk carries is generated at some node, from where the walk goes on without a
kill. -/
theorem exists_carries_iff {d : Direction} : (∃ ns, g.FlowWalk d ns n ∧ a.Carries ns x) ↔
    ∃ m mid, (∃ ns, g.FlowWalk d ns m) ∧ Walk (g.Feeds d) m (m :: mid) n ∧
      x ∈ a.genAt m ∧ ∀ k ∈ mid, x ∉ a.killAt k := by
  constructor
  · rintro ⟨_, walk, pre, m, post, rfl, gen, keep⟩
    obtain ⟨first, second⟩ := Walk.split_iff.1 walk
    exact ⟨m, post, ⟨pre, first⟩, second, gen, keep⟩
  · intro ⟨m, mid, ⟨pre, first⟩, second, gen, keep⟩
    exact ⟨_, Walk.split_iff.2 ⟨first, second⟩, pre, m, mid, rfl, gen, keep⟩

/-- A state of the solved analysis lists facts in their order. -/
theorem holding_sublist (s : BitSet) : (a.holding s).Sublist a.facts := by
  have taken : ∀ k, (List.range k).filterMap (a.facts[·]?) = a.facts.take k := by
    intro k
    induction k with
    | zero => rfl
    | succ k ih =>
      rw [List.range_succ, List.filterMap_append, ih, List.take_add_one]
      cases h : a.facts[k]? with
      | none => simp [h]
      | some y => simp [h]
  have below : (a.holding s).Sublist ((List.range s.size).filterMap (a.facts[·]?)) :=
    List.filter_sublist.filterMap _
  rw [taken] at below
  exact below.trans (List.take_sublist _ _)

variable [DecidableEq α]

section Bits

variable (fact : a.facts[i]? = some x)
include fact

theorem lt_of_fact : i < a.problem.size := (List.getElem?_eq_some_iff.1 fact).1

theorem getLsbD_indicator_of_fact {xs : List α} :
    (indicator a.facts xs).getLsbD i = true ↔ x ∈ xs := by
  rw [getLsbD_indicator]
  constructor
  · intro ⟨y, hy, mem⟩
    rw [fact] at hy
    exact Option.some.inj hy ▸ mem
  · intro mem
    exact ⟨x, fact, mem⟩

theorem getLsbD_indicator_getD {xss : List (List α)} :
    (((xss.map (indicator a.facts)).toArray.getD n 0#_).getLsbD i = true) ↔
      x ∈ xss[n]?.getD [] := by
  cases h : xss[n]? with
  | none => simp [Array.getD_eq_getD_getElem?, h]
  | some xs => simp [Array.getD_eq_getD_getElem?, h, getLsbD_indicator_of_fact fact]

theorem getLsbD_transfer_problem {y : BitVec a.problem.size} :
    (a.problem.transfer n y).getLsbD i = true ↔
      x ∈ a.genAt n ∨ y.getLsbD i = true ∧ x ∉ a.killAt n := by
  have gen : (a.problem.gen.getD n 0#_).getLsbD i = true ↔ x ∈ a.genAt n :=
    getLsbD_indicator_getD fact
  have kill : (a.problem.kill.getD n 0#_).getLsbD i = true ↔ x ∈ a.killAt n :=
    getLsbD_indicator_getD fact
  rw [GenKill.getLsbD_transfer, gen, ← kill, Bool.not_eq_true]

theorem getLsbD_along : (a.problem.along ns 0#_).getLsbD i = true ↔ a.Carries ns x := by
  induction ns using List.reverseRecOn with
  | nil => simp [not_carries_nil]
  | append_singleton ns m ih =>
    rw [GenKill.along_concat, getLsbD_transfer_problem fact, carries_concat, ih]

end Bits

section Solved

variable {v : Valuation a.problem.size} (h : a.problem.OverWalks g v)
  (hn : g.Participates a.direction n)
include h hn

theorem mem_holding_before : x ∈ a.holding (.ofBits (v.before n)) ↔
    x ∈ a.facts ∧ a.confluence.Across (g.FlowWalk a.direction · n) (a.Carries · x) := by
  have bit : ∀ i, a.facts[i]? = some x → ((v.before n).getLsbD i = true ↔
      a.confluence.Across (g.FlowWalk a.direction · n) (a.Carries · x)) := by
    intro i fact
    rw [Confluence.getLsbD_iff_across (lt_of_fact fact) (h.before n hn i)]
    have along : ∀ ns, (a.problem.along ns a.problem.boundary).getLsbD i = true ↔ a.Carries ns x :=
      fun _ => getLsbD_along fact
    simp only [along]
    rfl
  rw [mem_holding]
  constructor
  · intro ⟨i, told, fact⟩
    exact ⟨List.mem_of_getElem? fact, (bit i fact).1 told⟩
  · intro ⟨known, carried⟩
    obtain ⟨i, fact⟩ := List.getElem?_of_mem known
    exact ⟨i, (bit i fact).2 carried, fact⟩

theorem mem_holding_after : x ∈ a.holding (.ofBits (v.after n)) ↔
    x ∈ a.facts ∧ (x ∈ a.genAt n ∨ x ∈ a.holding (.ofBits (v.before n)) ∧ x ∉ a.killAt n) := by
  rw [h.after n hn, mem_holding, mem_holding]
  constructor
  · intro ⟨i, told, fact⟩
    refine ⟨List.mem_of_getElem? fact, ((getLsbD_transfer_problem fact).1 told).imp_right ?_⟩
    exact fun keep => ⟨⟨i, keep.1, fact⟩, keep.2⟩
  · intro ⟨known, told⟩
    cases told with
    | inl gen =>
      obtain ⟨i, fact⟩ := List.getElem?_of_mem known
      exact ⟨i, (getLsbD_transfer_problem fact).2 (Or.inl gen), fact⟩
    | inr keep =>
      obtain ⟨⟨i, told, fact⟩, keep⟩ := keep
      exact ⟨i, (getLsbD_transfer_problem fact).2 (Or.inr ⟨told, keep⟩), fact⟩

theorem mem_holding_after_iff_across : x ∈ a.holding (.ofBits (v.after n)) ↔
    x ∈ a.facts ∧
      a.confluence.Across (g.FlowWalk a.direction · n) fun ns => a.Carries (ns ++ [n]) x := by
  obtain ⟨-, reached⟩ := FlowGraph.participates_iff.1 hn
  simp only [carries_concat]
  rw [mem_holding_after h hn, mem_holding_before h hn, Confluence.across_or_and reached]
  refine and_congr_right fun known => or_congr_right ?_
  rw [and_iff_right known]

end Solved

end Analysis
end FlowAnalysis
