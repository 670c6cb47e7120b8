import FlowAnalysis.Proofs.Analysis.AvailableExprs
import FlowAnalysis.Proofs.Analysis.LiveVariables
import FlowAnalysis.Proofs.Analysis.Part
import FlowAnalysis.Proofs.Analysis.ReachingDefs
import FlowAnalysis.Proofs.FlowGraph.Sequence

/-!
Analyses of one program after another. Main statement: what flows forwards is at the points of the
first program as if nothing followed it, and what flows backwards is at those of the second as if
nothing came before.
-/
namespace FlowAnalysis

/-- Under `l` the one report lists the facts that the other lists under `m`, in the same order. -/
def Report.SameFacts (r : Report) (l : Label) (q : Report) (m : Label) : Prop :=
  ∃ entry exit, r.entry? l = some entry ∧ r.exit? l = some exit ∧
    q.entry? m = some entry ∧ q.exit? m = some exit

namespace Variable

/-- More members make a longer list of the same order. -/
theorem ascending_sublist {xs ys : List Variable} (sub : xs ⊆ ys) :
    (ascending xs).Sublist (ascending ys) := by
  have kept : (ascending ys).filter (· ∈ xs) = ascending xs := by
    refine List.Perm.eq_of_pairwise (fun x y _ _ lt gt => ?_) ((pairwise_ascending ys).filter _)
      (pairwise_ascending xs) ?_
    · exact absurd (String.lt_trans lt gt) (String.lt_irrefl x)
    · rw [List.perm_ext_iff_of_nodup ((nodup_ascending ys).filter _) (nodup_ascending xs)]
      intro x
      simpa using fun mem => sub mem
  rw [← kept]
  exact List.filter_sublist

end Variable

/-- Where the graph of `s` is a part of that of `t`, reports on both list the same facts. -/
theorem Statement.analyze_part {α : Type} [DecidableEq α] {s t : Statement} {g h : FlowGraph}
    (built : FlowGraph.build s = .ok g) (builtWhole : FlowGraph.build t = .ok h)
    {inside : Nat → Prop} {place : Nat → Nat} {a b : Analysis α} {fact : α → Fact}
    (config configWhole : Config) (asked : g.analyze config = a.report g config fact)
    (askedWhole : h.analyze configWhole = b.report h configWhole fact)
    (graphs : FlowGraph.Part a.direction inside place g h)
    (part : Analysis.Part inside place a b) :
    ∃ r q, s.analyze config = .ok r ∧ t.analyze configWhole = .ok q ∧
      ∀ n l m, inside n → g.label? n = some l → h.label? (place n) = some m →
        r.SameFacts l q m := by
  obtain ⟨r, v, analyzed, walks, lists⟩ := analyze_overWalks built config a fact asked
  obtain ⟨q, w, analyzedWhole, walksWhole, listsWhole⟩ :=
    analyze_overWalks builtWhole configWhole b fact askedWhole
  refine ⟨r, q, analyzed, analyzedWhole, fun n l m hn hl hm => ?_⟩
  obtain ⟨node, at_n, rfl⟩ := FlowGraph.label?_eq_some_iff.1 hl
  obtain ⟨node', at_place, rfl⟩ := FlowGraph.label?_eq_some_iff.1 hm
  obtain ⟨reached, entry, exit⟩ := lists n node at_n
  obtain ⟨reachedWhole, entryWhole, exitWhole⟩ := listsWhole (place n) node' at_place
  have before := part.holding_before_eq graphs walks walksWhole hn reached reachedWhole
  have after := part.holding_after_eq graphs walks walksWhole hn reached reachedWhole
  have both : b.holding (.ofBits (w.entry b.direction (place n))) =
        a.holding (.ofBits (v.entry a.direction n)) ∧
      b.holding (.ofBits (w.exit b.direction (place n))) =
        a.holding (.ofBits (v.exit a.direction n)) := by
    rw [part.direction]
    cases a.direction with
    | forward => exact ⟨before, after⟩
    | backward => exact ⟨after, before⟩
  rw [both.1] at entryWhole
  rw [both.2] at exitWhole
  exact ⟨_, _, entry, exit, entryWhole, exitWhole⟩

namespace FlowGraph

variable {s t : Statement} {scope : Scope}

/-- Control comes to the points of `s` from points of `s`. -/
theorem part_first :
    Part .forward (· < s.size) id (ofStatement s) (ofStatement (.seq [s, t])) where
  injective _ _ same := same
  boundary := rfl
  closed m n _ feeds := lt_of_step_ofStatement (feeds_forward.1 feeds)
  feeds a n hn := by
    simp only [feeds_forward, step_seq, id_eq, exists_eq_left']
    refine or_iff_left ?_
    rintro ⟨a', b', -, rfl, -⟩
    exact absurd hn (by simp)

/-- From the points of `t`, and from the exit, control comes to points of `t` and to the exit. -/
theorem part_second : Part .backward (fun _ => True) (s.size + ·) (ofStatement t)
    (ofStatement (.seq [s, t])) where
  injective _ _ same := Nat.add_left_cancel same
  boundary := size_seq
  closed _ _ _ _ := trivial
  feeds a n _ := by
    have step : (ofStatement (.seq [s, t])).Step (s.size + n) a ↔
        ∃ m, a = s.size + m ∧ (ofStatement t).Step n m := by
      rw [step_seq]
      constructor
      · rintro (first | ⟨n', m, same, rfl, second⟩)
        · have := lt_of_step_ofStatement first
          omega
        · obtain rfl := Nat.add_left_cancel same
          exact ⟨m, rfl, second⟩
      · rintro ⟨m, rfl, second⟩
        exact Or.inr ⟨n, m, rfl, rfl, second⟩
    exact step

/-- What the nodes of `s` and then `t` yield by their actions, `s` yields first. -/
theorem flatMap_nodes_seq {α : Type} {f : Node → List α} {F : Action → List α}
    (h : ∀ node, f node = F node.action) (exit : F .exit = []) :
    (ofStatement (.seq [s, t])).nodes.flatMap f =
      (ofStatement s).nodes.flatMap f ++ (ofStatement t).nodes.flatMap f := by
  have byAction : ∀ u : Statement, (ofStatement u).nodes.flatMap f = u.actions.flatMap F := by
    intro u
    calc (nodesOf u).flatMap f = (nodesOf u).flatMap fun node => F node.action := by rw [funext h]
      _ = ((nodesOf u).map (·.action)).flatMap F := (List.flatMap_map ..).symm
      _ = u.actions.flatMap F := by simp [map_action_nodesOf, exit]
  simp [byAction, Statement.actions, Statement.actionsAll]

theorem occurrences_seq : (ofStatement (.seq [s, t])).occurrences scope =
    (ofStatement s).occurrences scope ++ (ofStatement t).occurrences scope :=
  flatMap_nodes_seq (F := fun a => Node.candidates scope ⟨.exit, a⟩) (fun _ => rfl) rfl

theorem part_availableExprs : Analysis.Part (· < s.size) id
    ((ofStatement s).availableExprs scope) ((ofStatement (.seq [s, t])).availableExprs scope) where
  direction := rfl
  confluence := rfl
  facts := by
    change (List.eraseDups (occurrences _ _)).Sublist (List.eraseDups (occurrences _ _))
    rw [occurrences_seq, List.eraseDups_append]
    exact List.sublist_append_left _ _
  nodup := nodup_eraseDups _
  known n e gen := by
    obtain ⟨node, at_n, computes⟩ := mem_genAt_availableExprs.1 gen
    have listed : node ∈ (ofStatement s).nodes :=
      Array.mem_toList_iff.2 (Array.mem_of_getElem? at_n)
    exact mem_trackedExprs.2 (List.mem_flatMap.2 ⟨node, listed, computes.mem_candidates⟩)
  gen n e hn := by
    rw [mem_genAt_availableExprs, mem_genAt_availableExprs, id, node?_seq_first hn]
  kill n e hn known := by
    have tracked := mem_trackedExprs.1 known
    have trackedWhole : e ∈ (ofStatement (.seq [s, t])).occurrences scope := by
      rw [occurrences_seq]
      exact List.mem_append_left _ tracked
    rw [mem_killAt_availableExprs tracked, mem_killAt_availableExprs trackedWhole, id,
      node?_seq_first hn]

/-- The assignments of `s` come first, under the same labels. -/
theorem definitions_sublist_seq :
    (ofStatement s).definitions.Sublist (ofStatement (.seq [s, t])).definitions := by
  have exit : ∀ i, (⟨.exit, .exit⟩ : Node).definition? i = none := fun _ => rfl
  change (List.filterMap _ (nodesOf s).zipIdx).Sublist
    (List.filterMap _ (nodesOf (.seq [s, t])).zipIdx)
  rw [nodesOf_seq, nodesOf, List.zipIdx_append, List.zipIdx_append, List.filterMap_append,
    List.filterMap_append]
  simp [exit]

theorem part_reachingDefs {h : FlowGraph} (built : build (.seq [s, t]) = .ok h) :
    Analysis.Part (· < s.size) id (ofStatement s).reachingDefs
      (ofStatement (.seq [s, t])).reachingDefs where
  direction := rfl
  confluence := rfl
  facts := definitions_sublist_seq
  nodup := by
    obtain ⟨-, rfl⟩ := build_eq_ok.1 built
    exact (pairwise_label_definitions built).imp fun lt same =>
      Label.ne_of_lt lt (congrArg Definition.label same)
  known n D gen := mem_definitions.2 (mem_genAt_reachingDefs.1 gen).2
  gen n D hn := by
    rw [mem_genAt_reachingDefs, mem_genAt_reachingDefs]
    refine and_congr_right fun own => ?_
    obtain rfl : D.node = n := own
    rw [Defines, Defines, node?_seq_first hn]
  kill n D hn known := by
    have inWhole : D ∈ (ofStatement (.seq [s, t])).definitions :=
      definitions_sublist_seq.subset known
    rw [mem_killAt_reachingDefs (mem_definitions.1 known),
      mem_killAt_reachingDefs (mem_definitions.1 inWhole), Assigns, Assigns, id, node?_seq_first hn]

theorem reads_iff_action {g : FlowGraph} {n : Nat} {x : Variable} : g.Reads n x ↔
    ∃ a, (g.node? n).map (·.action) = some a ∧
      ∃ e, (⟨.exit, a⟩ : Node).expr? = some e ∧ x ∈ e.reads := by
  simp only [Option.map_eq_some_iff]
  constructor
  · intro ⟨node, e, at_n, evaluates, mem⟩
    exact ⟨_, ⟨node, at_n, rfl⟩, e, evaluates, mem⟩
  · rintro ⟨_, ⟨node, at_n, rfl⟩, e, evaluates, mem⟩
    exact ⟨node, e, at_n, evaluates, mem⟩

theorem assigns_iff_action {g : FlowGraph} {n : Nat} {x : Variable} : g.Assigns n x ↔
    ∃ a, (g.node? n).map (·.action) = some a ∧ (⟨.exit, a⟩ : Node).assigned? = some x := by
  simp only [Option.map_eq_some_iff]
  constructor
  · intro ⟨node, at_n, assigned⟩
    exact ⟨_, ⟨node, at_n, rfl⟩, assigned⟩
  · rintro ⟨_, ⟨node, at_n, rfl⟩, assigned⟩
    exact ⟨node, at_n, assigned⟩

theorem variables_sublist_seq :
    (ofStatement t).variables.Sublist (ofStatement (.seq [s, t])).variables := by
  refine Variable.ascending_sublist fun x mem => ?_
  have whole := flatMap_nodes_seq (s := s) (t := t)
    (f := fun node => node.assigned?.toList ++ node.uses)
    (F := fun a => (⟨.exit, a⟩ : Node).assigned?.toList ++ (⟨.exit, a⟩ : Node).uses)
    (fun _ => rfl) rfl
  rw [whole]
  exact List.mem_append_right _ mem

theorem part_liveVariables : Analysis.Part (fun _ => True) (s.size + ·)
    (ofStatement t).liveVariables (ofStatement (.seq [s, t])).liveVariables where
  direction := rfl
  confluence := rfl
  facts := variables_sublist_seq
  nodup := Variable.nodup_ascending _
  known n x gen := (mem_genAt_liveVariables.1 gen).mem_variables
  gen n x _ := by
    rw [mem_genAt_liveVariables, mem_genAt_liveVariables, reads_iff_action, action_seq_second,
      reads_iff_action]
  kill n x _ _ := by
    rw [mem_killAt_liveVariables, mem_killAt_liveVariables, assigns_iff_action, action_seq_second,
      assigns_iff_action]

section Reports

variable {p q : FlowGraph} (builtFirst : build s = .ok p) (builtSecond : build t = .ok q)
include builtFirst builtSecond

/-- Programs that are accepted make an accepted one. -/
theorem build_seq : build (.seq [s, t]) = .ok (ofStatement (.seq [s, t])) := by
  refine build_eq_ok.2 ⟨?_, rfl⟩
  simp [Statement.issues, Statement.issuesAll, (build_eq_ok.1 builtFirst).1,
    (build_eq_ok.1 builtSecond).1]

/-- Facts that flow forwards are at the points of `s` those of `s` alone. -/
theorem analyze_first {α : Type} [DecidableEq α] {a b : Analysis α} {fact : α → Fact}
    (config configWhole : Config) (asked : p.analyze config = a.report p config fact)
    (askedWhole : (ofStatement (.seq [s, t])).analyze configWhole =
      b.report (ofStatement (.seq [s, t])) configWhole fact)
    (forward : a.direction = .forward) (part : Analysis.Part (· < s.size) id a b) :
    ∃ r q, s.analyze config = .ok r ∧ (Statement.seq [s, t]).analyze configWhole = .ok q ∧
      ∀ n < s.size, r.SameFacts (.stmt (n + 1)) q (.stmt (n + 1)) := by
  have built := build_seq builtFirst builtSecond
  obtain ⟨-, rfl⟩ := build_eq_ok.1 builtFirst
  obtain ⟨r, q, analyzed, analyzedWhole, same⟩ := Statement.analyze_part builtFirst built config
    configWhole asked askedWhole (forward ▸ part_first) part
  refine ⟨r, q, analyzed, analyzedWhole, fun n lt => same n _ _ lt (label?_point lt) ?_⟩
  rw [label?, id, node?_seq_first lt]
  exact label?_point lt

/-- What flows forwards is at the points of `s` as if `t` did not follow. -/
theorem analyze_seq_first {kind : AnalysisKind} (forward : kind ≠ .liveVariables) (scope : Scope)
    (forPart forWhole : Strategy) :
    ∃ part whole, s.analyze ⟨kind, forPart, scope⟩ = .ok part ∧
      (Statement.seq [s, t]).analyze ⟨kind, forWhole, scope⟩ = .ok whole ∧
      ∀ n < s.size, part.SameFacts (.stmt (n + 1)) whole (.stmt (n + 1)) := by
  have built := build_seq builtFirst builtSecond
  obtain ⟨-, rfl⟩ := build_eq_ok.1 builtFirst
  cases kind with
  | availableExprs =>
    exact analyze_first builtFirst builtSecond _ _ rfl rfl rfl part_availableExprs
  | reachingDefs =>
    exact analyze_first builtFirst builtSecond _ _ rfl rfl rfl (part_reachingDefs built)
  | liveVariables => exact absurd rfl forward

/-- What flows backwards is at the points of `t`, and at the exit, as if `s` did not come before. -/
theorem analyze_seq_second (scope scope' : Scope) (forPart forWhole : Strategy) :
    ∃ part whole, t.analyze ⟨.liveVariables, forPart, scope⟩ = .ok part ∧
      (Statement.seq [s, t]).analyze ⟨.liveVariables, forWhole, scope'⟩ = .ok whole ∧
      (∀ n < t.size, part.SameFacts (.stmt (n + 1)) whole (.stmt (s.size + (n + 1)))) ∧
      part.SameFacts .exit whole .exit := by
  have built := build_seq builtFirst builtSecond
  obtain ⟨-, rfl⟩ := build_eq_ok.1 builtSecond
  obtain ⟨part, whole, analyzed, analyzedWhole, same⟩ :=
    Statement.analyze_part builtSecond built ⟨.liveVariables, forPart, scope⟩
      ⟨.liveVariables, forWhole, scope'⟩ rfl rfl part_second part_liveVariables
  refine ⟨part, whole, analyzed, analyzedWhole, fun n lt => ?_, ?_⟩
  · refine same n _ _ trivial (label?_point lt) (label?_point ?_)
    rw [size_seq]
    exact Nat.add_lt_add_left lt _
  · refine same t.size _ _ trivial label?_size ?_
    rw [← size_seq]
    exact label?_size

end Reports

/-- Analyses are compositional over sequencing: facts that flow forwards are at the points of the
first program those of that program alone, and facts that flow backwards at the points of the second
one, and at the exit, those of the second alone. -/
theorem analyses_compose_over_seq {p q : FlowGraph} (builtFirst : build s = .ok p)
    (builtSecond : build t = .ok q) :
    (∃ g, build (.seq [s, t]) = .ok g) ∧
    (∀ kind ≠ .liveVariables, ∀ scope forPart forWhole, ∃ part whole,
      s.analyze ⟨kind, forPart, scope⟩ = .ok part ∧
      (Statement.seq [s, t]).analyze ⟨kind, forWhole, scope⟩ = .ok whole ∧
      ∀ l, 1 ≤ l → l ≤ s.size → part.SameFacts (.stmt l) whole (.stmt l)) ∧
    (∀ scope scope' forPart forWhole, ∃ part whole,
      t.analyze ⟨.liveVariables, forPart, scope⟩ = .ok part ∧
      (Statement.seq [s, t]).analyze ⟨.liveVariables, forWhole, scope'⟩ = .ok whole ∧
      (∀ l, 1 ≤ l → l ≤ t.size → part.SameFacts (.stmt l) whole (.stmt (s.size + l))) ∧
      part.SameFacts .exit whole .exit) := by
  refine ⟨⟨_, build_seq builtFirst builtSecond⟩, ?_, ?_⟩
  · intro kind forward scope forPart forWhole
    obtain ⟨part, whole, analyzed, analyzedWhole, same⟩ :=
      analyze_seq_first builtFirst builtSecond forward scope forPart forWhole
    refine ⟨part, whole, analyzed, analyzedWhole, fun l pos le => ?_⟩
    obtain ⟨n, rfl⟩ := Nat.exists_eq_add_of_le' pos
    exact same n le
  · intro scope scope' forPart forWhole
    obtain ⟨part, whole, analyzed, analyzedWhole, same, exit⟩ :=
      analyze_seq_second builtFirst builtSecond scope scope' forPart forWhole
    refine ⟨part, whole, analyzed, analyzedWhole, fun l pos le => ?_, exit⟩
    obtain ⟨n, rfl⟩ := Nat.exists_eq_add_of_le' pos
    exact same n le

/-- The countdown twice: the second one reads what the first one computes, and computes the same. -/
theorem analyses_compose_over_seq_countdown :
    build .countdown = .ok (ofStatement .countdown) ∧
      (∃ part whole,
        Statement.countdown.analyze ⟨.availableExprs, .gaussSeidel, .nested⟩ = .ok part ∧
        (Statement.seq [.countdown, .countdown]).analyze ⟨.availableExprs, .jacobi, .nested⟩ =
          .ok whole ∧ part.SameFacts (.stmt 2) whole (.stmt 2)) ∧
      ∃ part whole, Statement.countdown.analyze ⟨.liveVariables, .jacobi, .topLevel⟩ = .ok part ∧
        (Statement.seq [.countdown, .countdown]).analyze ⟨.liveVariables, .gaussSeidel, .topLevel⟩ =
          .ok whole ∧ part.SameFacts (.stmt 1) whole (.stmt 4) := by
  obtain ⟨-, forwards, backwards⟩ := analyses_compose_over_seq build_countdown build_countdown
  obtain ⟨part, whole, analyzed, analyzedWhole, same⟩ :=
    forwards .availableExprs nofun .nested .gaussSeidel .jacobi
  obtain ⟨part', whole', analyzed', analyzedWhole', same', -⟩ :=
    backwards .topLevel .topLevel .jacobi .gaussSeidel
  exact ⟨build_countdown, ⟨part, whole, analyzed, analyzedWhole, same 2 (by decide) (by decide)⟩,
    part', whole', analyzed', analyzedWhole', same' 1 (by decide) (by decide)⟩

end FlowGraph
end FlowAnalysis
