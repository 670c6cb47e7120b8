import FlowAnalysis.Digraph.Traversal
import FlowAnalysis.Proofs.Digraph.Indexed

/-!
Loops that traverse graphs with numbered edges. Main statement: from every node of every graph they
end, and the flags that they set are those of the nodes to which, or from which, a walk leads.
-/
namespace FlowAnalysis

namespace BitSet

variable {s : BitSet} {n : Nat}

/-- The flag of each number of the universe. -/
def flags (s : BitSet) : Array Bool := Array.ofFn fun i : Fin s.size => decide (i.val ∈ s)

@[simp] theorem size_flags (s : BitSet) : s.flags.size = s.size := Array.size_ofFn

theorem getElem?_flags (lt : n < s.size) : s.flags[n]? = some (!s.lacks n) := by
  rw [flags, Array.getElem?_ofFn, dif_pos lt]
  simp [lacks, lt]

theorem setIfInBounds_flags (s : BitSet) (n : Nat) :
    s.flags.setIfInBounds n true = (s.add n).flags := by
  apply Array.ext
  · simp
  · intro i _ lt
    have inside : i < s.size := by simpa using lt
    rw [Array.getElem_setIfInBounds ((size_flags s).symm ▸ inside)]
    split
    next same => simp [flags, same, inside]
    next other => simp [flags, Ne.symm other]

end BitSet

namespace Digraph

variable {N E : Type} {g : Digraph N E} {m n : Nat} {ns : List Nat}

@[simp] theorem size_reachableFrom (g : Digraph N E) (start : Nat) :
    (g.reachableFrom start).size = g.nodeCount := by
  simp [reachableFrom]

@[simp] theorem size_reachingTo (g : Digraph N E) (target : Nat) :
    (g.reachingTo target).size = g.nodeCount := by
  simp [reachingTo]

/-- Walks stay among the nodes, or among what is no node. -/
theorem lt_iff_of_walk (walk : Walk g.Step m ns n) : m < g.nodeCount ↔ n < g.nodeCount :=
  ⟨walk.keeps (P := (· < g.nodeCount)) fun _ _ next _ => next.target_lt,
    walk.keepsBack (P := (· < g.nodeCount)) fun _ _ next _ => next.source_lt⟩

theorem mem_reachableFrom_iff : n ∈ g.reachableFrom m ↔
    m < g.nodeCount ∧ ∃ ns, Walk g.Step m ns n := by
  rw [mem_reachableFrom]
  exact and_congr_left fun ⟨_, walk⟩ => (lt_iff_of_walk walk).symm

theorem mem_reachingTo_iff : n ∈ g.reachingTo m ↔
    m < g.nodeCount ∧ ∃ ns, Walk g.Step n ns m := by
  rw [mem_reachingTo]
  exact and_congr_left fun ⟨_, walk⟩ => lt_iff_of_walk walk

theorem reachingTo_of_le (out : g.nodeCount ≤ m) : g.reachingTo m = .empty g.nodeCount := by
  refine BitSet.ext_mem (size_reachingTo g m) fun n => ?_
  rw [mem_reachingTo_iff]
  exact iff_of_false (fun reaches => Nat.not_lt.2 out reaches.1) BitSet.not_mem_empty

theorem reachableFrom_of_le (out : g.nodeCount ≤ m) : g.reachableFrom m = .empty g.nodeCount := by
  refine BitSet.ext_mem (size_reachableFrom g m) fun n => ?_
  rw [mem_reachableFrom_iff]
  exact iff_of_false (fun reaches => Nat.not_lt.2 out reaches.1) BitSet.not_mem_empty

end Digraph

namespace IndexedGraph

variable {N E : Type} {g : Digraph N E} {s reached seen : BitSet} {n : Nat} {ns stack : List Nat}

theorem flag_flags (lt : n < s.size) : flag s.flags n = some (s.add n).flags := by
  have inside : n < s.flags.size := (BitSet.size_flags s).symm ▸ lt
  rw [← BitSet.setIfInBounds_flags, flag, dif_pos inside, Array.setIfInBounds_def, dif_pos inside]

theorem foldlM_flag (below : ∀ n ∈ ns, n < s.size) :
    ns.foldlM flag s.flags = some (ns.foldl BitSet.add s).flags := by
  induction ns generalizing s with
  | nil => rfl
  | cons n ns ih =>
    obtain ⟨lt, others⟩ := List.forall_mem_cons.1 below
    rw [List.foldlM_cons, flag_flags lt, List.foldl_cons]
    exact ih fun m hm => (BitSet.size_add s n).symm ▸ others m hm

theorem noFlags_indexed : g.indexed.noFlags = (BitSet.empty g.nodeCount).flags := by
  apply Array.ext
  · simp [noFlags, BitSet.flags, nodeCount_indexed]
  · simp [noFlags, BitSet.flags]

theorem successors_indexed (lt : n < g.nodeCount) :
    g.indexed.successors n = some (g.successors n) :=
  (respects_indexed.successors g n).trans (if_pos lt)

theorem predecessors_indexed (lt : n < g.nodeCount) :
    g.indexed.predecessors n = some (g.predecessors n) :=
  (respects_indexed.predecessors g n).trans (if_pos lt)

/-- A place among the successors of a node stands for those that come from there on. -/
structure Points (g : Digraph N E) (f : Digraph.Frame) (cursor : Nat × Nat) : Prop where
  node : f.node = cursor.1
  lt : f.node < g.nodeCount
  pending : f.pending = (g.successors f.node).drop cursor.2

namespace Points

variable {m next : Nat} {ms : List Nat}

theorem start (lt : n < g.nodeCount) : Points g ⟨n, g.successors n⟩ (n, 0) := ⟨rfl, lt, rfl⟩

theorem getElem?_eq_none (h : Points g ⟨n, []⟩ (n, next)) : (g.successors n)[next]? = none := by
  rw [← List.head?_drop, ← h.pending, List.head?_nil]

theorem getElem?_eq_some (h : Points g ⟨n, m :: ms⟩ (n, next)) :
    (g.successors n)[next]? = some m := by
  rw [← List.head?_drop, ← h.pending, List.head?_cons]

theorem advance (h : Points g ⟨n, m :: ms⟩ (n, next)) : Points g ⟨n, ms⟩ (n, next + 1) := by
  refine ⟨rfl, h.lt, ?_⟩
  rw [← List.tail_drop, ← h.pending, List.tail_cons]

end Points

/-- The loop goes through the events of the search. -/
theorem searchFrom_eq {frames : List Digraph.Frame} {cursors : List (Nat × Nat)}
    (size : seen.size = g.nodeCount) (points : List.Forall₂ (Points g) frames cursors) :
    g.indexed.searchFrom seen.flags cursors = some (g.search seen frames) := by
  induction seen, frames using Digraph.search.induct g generalizing cursors with
  | case1 seen =>
    cases points
    rw [searchFrom, Digraph.search]
  | case2 seen n rest ih =>
    cases points with
    | @cons _ cursor _ _ first below =>
      obtain ⟨n', next⟩ := cursor
      obtain rfl : n = n' := first.node
      rw [searchFrom_finish (successors_indexed first.lt) first.getElem?_eq_none, ih size below,
        Digraph.search]
      rfl
  | case3 seen n m ms rest ihEnter ihSkip =>
    cases points with
    | @cons _ cursor _ _ first below =>
      obtain ⟨n', next⟩ := cursor
      obtain rfl : n = n' := first.node
      have found := successors_indexed first.lt
      have next := first.getElem?_eq_some
      have target : g.Step n m := List.mem_of_getElem? next
      have lt : m < seen.size := size ▸ target.target_lt
      have flagged := BitSet.getElem?_flags lt
      rw [Digraph.search]
      cases new : seen.lacks m with
      | false =>
        rw [new] at flagged
        rw [searchFrom_skip found next flagged, ihSkip size (.cons first.advance below)]
        rfl
      | true =>
        have sizeAdd : (seen.add m).size = g.nodeCount := (BitSet.size_add seen m).trans size
        rw [new] at flagged
        rw [searchFrom_enter found next flagged, BitSet.setIfInBounds_flags, ihEnter new sizeAdd
          (.cons (.start target.target_lt) (.cons first.advance below))]
        rfl

theorem events_indexed (g : Digraph N E) (start : Nat) :
    g.indexed.events start = some (g.events start) := by
  rw [events, Digraph.events, nodeCount_indexed]
  split
  next lt =>
    have empty : start < (BitSet.empty g.nodeCount).size := lt
    rw [noFlags_indexed, flag_flags empty]
    exact searchFrom_eq (BitSet.size_add ..) (.cons (.start lt) .nil)
  next => rfl

theorem reachableFrom_indexed (g : Digraph N E) (start : Nat) :
    g.indexed.reachableFrom start = some (g.reachableFrom start).flags := by
  have below : ∀ n ∈ g.postorder start, n < (BitSet.empty g.nodeCount).size := fun n hn =>
    (Digraph.mem_postorder_iff.1 hn).1
  rw [reachableFrom, postorder, events_indexed, noFlags_indexed]
  exact foldlM_flag below

/-- Marking, with a set for the flags. -/
def markIn (state : BitSet × List Nat) (n : Nat) : BitSet × List Nat :=
  if state.1.lacks n then (state.1.add n, n :: state.2) else state

/-- What marking `ns` does: they are all marked then, what is new is on the stack, and for each
member that the stack gains there is less room. -/
structure Marks (ns : List Nat) (before after : BitSet × List Nat) : Prop where
  size : after.1.size = before.1.size
  mem : ∀ x, x ∈ after.1 ↔ x ∈ before.1 ∨ x ∈ ns ∧ x < before.1.size
  stack : ∀ x, x ∈ after.2 ↔ x ∈ before.2 ∨ x ∈ after.1 ∧ x ∉ before.1
  room : after.1.room + after.2.length ≤ before.1.room + before.2.length

theorem marks_markIn (state : BitSet × List Nat) (n : Nat) : Marks [n] state (markIn state n) := by
  unfold markIn
  split
  next new =>
    have less := BitSet.room_add_lt new
    obtain ⟨lt, out⟩ := BitSet.lacks_iff.1 new
    refine ⟨BitSet.size_add .., fun x => ?_, fun x => ?_, ?_⟩
    · simp only [BitSet.mem_add, List.mem_singleton]
      grind
    · simp only [List.mem_cons, BitSet.mem_add]
      grind
    · simp only [List.length_cons]
      omega
  next old =>
    rw [BitSet.lacks_iff] at old
    refine ⟨rfl, fun x => ?_, fun x => by grind, Nat.le_refl _⟩
    simp only [List.mem_singleton]
    grind

theorem Marks.trans {ms : List Nat} {a b c : BitSet × List Nat} (h : Marks ns a b)
    (h' : Marks ms b c) : Marks (ns ++ ms) a c := by
  refine ⟨h'.size.trans h.size, fun x => ?_, fun x => ?_, Nat.le_trans h'.room h.room⟩
  · rw [h'.mem, h.mem, h.size, List.mem_append]
    grind
  · have := h.mem x
    have := h'.mem x
    rw [h'.stack, h.stack]
    grind

theorem marks_foldl (ns : List Nat) (state : BitSet × List Nat) :
    Marks ns state (ns.foldl markIn state) := by
  induction ns generalizing state with
  | nil => exact ⟨rfl, by simp, by grind, Nat.le_refl _⟩
  | cons n ns ih => exact (marks_markIn state n).trans (ih _)

theorem mark_flags (lt : n < reached.size) : mark (reached.flags, stack) n =
    some (Prod.map BitSet.flags id (markIn (reached, stack) n)) := by
  have flagged := BitSet.getElem?_flags lt
  rw [mark, markIn]
  cases new : reached.lacks n with
  | false =>
    simp only [flagged, new, Bool.not_false, Bool.false_eq_true, if_false]
    rfl
  | true =>
    simp only [flagged, new, Bool.not_true, if_true, BitSet.setIfInBounds_flags]
    rfl

theorem foldlM_mark (below : ∀ n ∈ ns, n < reached.size) :
    ns.foldlM mark (reached.flags, stack) =
      some (Prod.map BitSet.flags id (ns.foldl markIn (reached, stack))) := by
  induction ns generalizing reached stack with
  | nil => rfl
  | cons n ns ih =>
    obtain ⟨lt, others⟩ := List.forall_mem_cons.1 below
    rw [List.foldlM_cons, mark_flags lt, List.foldl_cons]
    exact ih fun m hm => (marks_markIn (reached, stack) n).size.symm ▸ others m hm

/-- The loop can go on: what is on the stack is marked, and so is all that leads to a marked node
which is no longer there. -/
structure Marking (g : Digraph N E) (reached : BitSet) (stack : List Nat) : Prop where
  size : reached.size = g.nodeCount
  marked : ∀ n ∈ stack, n ∈ reached
  closed : ∀ n m, m ∈ reached → m ∉ stack → g.Step n m → n ∈ reached

theorem Marking.step (h : Marking g reached (n :: stack)) :
    Marking g ((g.predecessors n).foldl markIn (reached, stack)).1
      ((g.predecessors n).foldl markIn (reached, stack)).2 := by
  have marks := marks_foldl (g.predecessors n) (reached, stack)
  have stays : ∀ {x}, x ∈ reached → x ∈ ((g.predecessors n).foldl markIn (reached, stack)).1 :=
    fun hx => (marks.mem _).2 (Or.inl hx)
  refine ⟨marks.size.trans h.size, fun m hm => ?_, fun k m hm out step => ?_⟩
  · obtain old | new := (marks.stack m).1 hm
    · exact stays (h.marked m (List.mem_cons_of_mem _ old))
    · exact new.1
  · have old : m ∈ reached := by
      by_contra new
      exact out ((marks.stack m).2 (Or.inr ⟨hm, new⟩))
    by_cases here : m = n
    · subst here
      have source : k < reached.size := h.size ▸ step.source_lt
      exact (marks.mem k).2 (Or.inr ⟨Digraph.step_iff_mem_predecessors.1 step, source⟩)
    · have left : m ∉ n :: stack := by
        rw [List.mem_cons, not_or]
        exact ⟨here, fun below => out ((marks.stack m).2 (Or.inl below))⟩
      exact stays (h.closed k m old left step)

/-- The loop ends with all marked that leads to what was marked, and no more: each turn takes a node
from the stack, and whatever comes onto it takes room. -/
theorem exists_markBackwards (h : Marking g reached stack) :
    ∃ final : BitSet, g.indexed.markBackwards reached.flags stack = some final.flags ∧
      final.size = g.nodeCount ∧ (∀ n ∈ reached, n ∈ final) ∧
      (∀ n m, m ∈ final → g.Step n m → n ∈ final) ∧
      ∀ n ∈ final, ∃ m ∈ reached, ∃ ns, Walk g.Step n ns m := by
  generalize turns : reached.room + stack.length = bound
  induction bound using Nat.strongRecOn generalizing reached stack with
  | ind bound ih =>
    cases stack with
    | nil =>
      refine ⟨reached, by rw [markBackwards], h.size, fun _ => id, ?_, ?_⟩
      · exact fun n m hm step => h.closed n m hm List.not_mem_nil step
      · exact fun n hn => ⟨n, hn, [], Walk.stay⟩
    | cons n stack =>
      have marks := marks_foldl (g.predecessors n) (reached, stack)
      have here : n ∈ reached := h.marked n List.mem_cons_self
      have lt : n < g.nodeCount := h.size ▸ BitSet.lt_size_of_mem here
      have below : ∀ k ∈ g.predecessors n, k < reached.size := fun k hk =>
        h.size ▸ (Digraph.step_iff_mem_predecessors.2 hk).source_lt
      have fewer : _ < bound := Nat.lt_of_le_of_lt marks.room (turns ▸ Nat.lt_succ_self _)
      obtain ⟨final, ran, size, held, closed, sound⟩ := ih _ fewer h.step rfl
      refine ⟨final, ?_, size, ?_, closed, ?_⟩
      · exact (markBackwards_cons (predecessors_indexed lt) (foldlM_mark below)).trans ran
      · exact fun x hx => held x ((marks.mem x).2 (Or.inl hx))
      · intro x hx
        obtain ⟨m, hm, ns, walk⟩ := sound x hx
        obtain old | new := (marks.mem m).1 hm
        · exact ⟨m, old, ns, walk⟩
        · have step : g.Step m n := Digraph.step_iff_mem_predecessors.2 new.1
          exact ⟨n, here, ns ++ [m], walk.step step⟩

theorem reachingTo_indexed (g : Digraph N E) (target : Nat) :
    g.indexed.reachingTo target = some (g.reachingTo target).flags := by
  rw [reachingTo, nodeCount_indexed, noFlags_indexed]
  split
  next lt =>
    have only : ∀ n, n ∈ (BitSet.empty g.nodeCount).add target ↔ n = target := by
      intro n
      simp [lt]
    have start : Marking g ((BitSet.empty g.nodeCount).add target) [target] := by
      refine ⟨BitSet.size_add .., fun n hn => ?_, fun n m hm out => ?_⟩
      · exact (only n).2 (List.mem_singleton.1 hn)
      · exact absurd (List.mem_singleton.2 ((only m).1 hm)) out
    obtain ⟨final, ran, size, held, closed, sound⟩ := exists_markBackwards start
    have same : final = g.reachingTo target := by
      refine BitSet.ext_mem (size.trans (g.size_reachingTo target).symm) fun n => ?_
      rw [Digraph.mem_reachingTo_iff]
      constructor
      · intro hn
        obtain ⟨m, hm, walk⟩ := sound n hn
        obtain rfl := (only m).1 hm
        exact ⟨lt, walk⟩
      · rintro ⟨-, ns, walk⟩
        exact walk.keepsBack (P := (· ∈ final)) (fun x y next hy => closed x y hy next)
          (held target ((only target).2 rfl))
    have empty : target < (BitSet.empty g.nodeCount).size := lt
    rw [flag_flags empty, ← same]
    exact ran
  next out => rw [Digraph.reachingTo_of_le (Nat.le_of_not_lt out)]

end IndexedGraph

/-- Reachability is exact in both directions, and the loops that flag nodes end with its flags. -/
theorem Digraph.reachability_exact {N E : Type} (g : Digraph N E) :
    (∀ s n, n ∈ g.reachableFrom s ↔ s < g.nodeCount ∧ ∃ ns, Walk g.Step s ns n) ∧
      (∀ t n, n ∈ g.reachingTo t ↔ t < g.nodeCount ∧ ∃ ns, Walk g.Step n ns t) ∧
      (∀ s t, t ∈ g.reachableFrom s ↔ s ∈ g.reachingTo t) ∧
      (∀ n, g.nodeCount ≤ n →
        g.reachableFrom n = .empty g.nodeCount ∧ g.reachingTo n = .empty g.nodeCount) ∧
      ∀ n, (g.reachableFrom n).size = g.nodeCount ∧ (g.reachingTo n).size = g.nodeCount ∧
        g.indexed.reachableFrom n = some (g.reachableFrom n).flags ∧
        g.indexed.reachingTo n = some (g.reachingTo n).flags := by
  refine ⟨fun _ _ => mem_reachableFrom_iff, fun _ _ => mem_reachingTo_iff, fun s t => ?_, ?_, ?_⟩
  · rw [mem_reachableFrom_iff, mem_reachingTo_iff]
    exact and_congr_left fun ⟨_, walk⟩ => lt_iff_of_walk walk
  · exact fun n out => ⟨reachableFrom_of_le out, reachingTo_of_le out⟩
  · exact fun n => ⟨size_reachableFrom g n, size_reachingTo g n,
      IndexedGraph.reachableFrom_indexed g n, IndexedGraph.reachingTo_indexed g n⟩

end FlowAnalysis
