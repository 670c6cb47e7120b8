import FlowAnalysis.Digraph.Search
import FlowAnalysis.Proofs.BitSet.Elements
import FlowAnalysis.Proofs.Walk
import Mathlib.Tactic.Tauto
import Mathlib.Tactic.ByContra

/-!
Reachability by walks. Main statements: a depth-first search finishes exactly the nodes to which a
walk leads from its start, and the backward closure of a node holds exactly those from which a walk
leads to it.
-/
namespace FlowAnalysis

namespace Digraph

variable {N E : Type} {g : Digraph N E}

/-- An edge leads from `a` to `b`. -/
def Step (g : Digraph N E) (a b : Nat) : Prop := b ∈ g.successors a

theorem step_iff_mem_predecessors {a b : Nat} : g.Step a b ↔ a ∈ g.predecessors b := by
  rw [Step, mem_successors, mem_predecessors]
  constructor <;> rintro ⟨e, he, hs, ht⟩ <;> exact ⟨e, he, ht, hs⟩

theorem Step.source_lt {a b : Nat} (h : g.Step a b) : a < g.nodeCount := by
  obtain ⟨e, he, rfl, -⟩ := mem_successors.1 h
  exact (g.valid e he).1

theorem Step.target_lt {a b : Nat} (h : g.Step a b) : b < g.nodeCount := by
  obtain ⟨e, he, -, rfl⟩ := mem_successors.1 h
  exact (g.valid e he).2

theorem mem_postorder {n start : Nat} :
    n ∈ g.postorder start ↔ Event.finish n ∈ g.events start := by
  rw [postorder, List.mem_filterMap]
  constructor
  · rintro ⟨event, he, finish⟩
    cases event with
    | edge s t => simp at finish
    | finish m =>
      obtain rfl : m = n := by simpa using finish
      exact he
  · intro h
    exact ⟨_, h, rfl⟩

/-- A search finishes nothing but the nodes of its stack and what their pending successors reach. -/
theorem reached_of_finish_mem_search {seen : BitSet} {stack : List Frame} {n : Nat}
    (h : Event.finish n ∈ g.search seen stack) :
    ∃ f ∈ stack, n = f.node ∨ ∃ m ∈ f.pending, ∃ ns, Walk g.Step m ns n := by
  induction seen, stack using search.induct g with
  | case1 seen => simp [search] at h
  | case2 seen m rest ih =>
    rw [search, List.mem_cons] at h
    obtain same | h := h
    · exact ⟨⟨m, []⟩, List.mem_cons_self, Or.inl (by simpa using same)⟩
    · obtain ⟨f, hf, reached⟩ := ih h
      exact ⟨f, List.mem_cons_of_mem _ hf, reached⟩
  | case3 seen k m ms rest ihEnter ihSkip =>
    rw [search, List.mem_cons] at h
    have below : (∃ f ∈ (⟨k, ms⟩ :: rest : List Frame),
        n = f.node ∨ ∃ m ∈ f.pending, ∃ ns, Walk g.Step m ns n) →
        ∃ f ∈ (⟨k, m :: ms⟩ :: rest : List Frame),
          n = f.node ∨ ∃ m ∈ f.pending, ∃ ns, Walk g.Step m ns n := by
      rintro ⟨f, hf, reached⟩
      obtain rfl | hf := List.mem_cons.1 hf
      · refine ⟨⟨k, m :: ms⟩, List.mem_cons_self, reached.imp_right ?_⟩
        rintro ⟨x, hx, walk⟩
        exact ⟨x, List.mem_cons_of_mem _ hx, walk⟩
      · exact ⟨f, List.mem_cons_of_mem _ hf, reached⟩
    replace h := h.resolve_left (by simp)
    split at h
    next new =>
      obtain ⟨f, hf, reached⟩ := ihEnter new h
      obtain rfl | hf := List.mem_cons.1 hf
      · -- what `m` reaches from the stack, it reached before as a pending successor
        refine ⟨⟨k, m :: ms⟩, List.mem_cons_self, Or.inr ⟨m, List.mem_cons_self, ?_⟩⟩
        obtain rfl | ⟨x, hx, ns, walk⟩ := reached
        · exact ⟨[], Walk.stay⟩
        · exact ⟨m :: ns, Walk.cons hx walk⟩
      · exact below ⟨f, hf, reached⟩
    next old => exact below (ihSkip h)

/-- The state of a search in which `done` are the nodes finished before: whatever has been seen is
done or on the stack, and the successors of each such node have been seen or are pending. -/
structure Searching (g : Digraph N E) (done : Nat → Prop) (seen : BitSet) (stack : List Frame) :
    Prop where
  size : seen.size = g.nodeCount
  seen_done : ∀ n ∈ seen, done n ∨ ∃ f ∈ stack, n = f.node
  done_closed : ∀ n m, done n → g.Step n m → m ∈ seen
  stack_closed : ∀ f ∈ stack, ∀ m, g.Step f.node m → m ∈ seen ∨ m ∈ f.pending

namespace Searching

variable {done : Nat → Prop} {seen : BitSet} {n m : Nat} {ms : List Nat} {rest : List Frame}

theorem finish (h : g.Searching done seen (⟨n, []⟩ :: rest)) :
    g.Searching (fun x => done x ∨ x = n) seen rest where
  size := h.size
  seen_done := fun x hx => by
    obtain hd | ⟨f, hf, rfl⟩ := h.seen_done x hx
    · exact Or.inl (Or.inl hd)
    · obtain rfl | hf := List.mem_cons.1 hf
      · exact Or.inl (Or.inr rfl)
      · exact Or.inr ⟨f, hf, rfl⟩
  done_closed := fun x y hx step => by
    obtain hx | rfl := hx
    · exact h.done_closed x y hx step
    · exact (h.stack_closed _ List.mem_cons_self y step).resolve_right List.not_mem_nil
  stack_closed := fun f hf => h.stack_closed f (List.mem_cons_of_mem _ hf)

theorem enter (h : g.Searching done seen (⟨n, m :: ms⟩ :: rest)) (lt : m < seen.size) :
    g.Searching done (seen.add m) (⟨m, g.successors m⟩ :: ⟨n, ms⟩ :: rest) where
  size := by rw [BitSet.size_add, h.size]
  seen_done := fun x hx => by
    obtain hx | ⟨rfl, -⟩ := BitSet.mem_add.1 hx
    · obtain hd | ⟨f, hf, rfl⟩ := h.seen_done x hx
      · exact Or.inl hd
      · obtain rfl | hf := List.mem_cons.1 hf
        · exact Or.inr ⟨⟨n, ms⟩, by simp, rfl⟩
        · exact Or.inr ⟨f, by simp [hf], rfl⟩
    · exact Or.inr ⟨_, List.mem_cons_self, rfl⟩
  done_closed := fun x y hx step => BitSet.mem_add.2 (Or.inl (h.done_closed x y hx step))
  stack_closed := fun f hf y step => by
    obtain rfl | hf := List.mem_cons.1 hf
    · exact Or.inr step
    · obtain rfl | hf := List.mem_cons.1 hf
      · have := h.stack_closed _ List.mem_cons_self y step
        simp only [BitSet.mem_add, List.mem_cons] at this ⊢
        tauto
      · exact (h.stack_closed f (List.mem_cons_of_mem _ hf) y step).imp_left
          fun hy => BitSet.mem_add.2 (Or.inl hy)

theorem skip (h : g.Searching done seen (⟨n, m :: ms⟩ :: rest)) (hm : m ∈ seen) :
    g.Searching done seen (⟨n, ms⟩ :: rest) where
  size := h.size
  seen_done := fun x hx => by
    obtain hd | ⟨f, hf, rfl⟩ := h.seen_done x hx
    · exact Or.inl hd
    · obtain rfl | hf := List.mem_cons.1 hf
      · exact Or.inr ⟨⟨n, ms⟩, List.mem_cons_self, rfl⟩
      · exact Or.inr ⟨f, List.mem_cons_of_mem _ hf, rfl⟩
  done_closed := h.done_closed
  stack_closed := fun f hf y step => by
    obtain rfl | hf := List.mem_cons.1 hf
    · obtain hy | hy := h.stack_closed _ List.mem_cons_self y step
      · exact Or.inl hy
      · obtain rfl | hy := List.mem_cons.1 hy
        · exact Or.inl hm
        · exact Or.inr hy
    · exact h.stack_closed f (List.mem_cons_of_mem _ hf) y step

end Searching

/-- What a search has seen it finishes, unless that is done, and all is closed in the end. -/
theorem closed_of_searching {done : Nat → Prop} {seen : BitSet} {stack : List Frame}
    (h : g.Searching done seen stack)
    (pending : ∀ f ∈ stack, ∀ m ∈ f.pending, m < g.nodeCount) :
    (∀ n ∈ seen, done n ∨ Event.finish n ∈ g.search seen stack) ∧
      ∀ n m, done n ∨ Event.finish n ∈ g.search seen stack → g.Step n m →
        done m ∨ Event.finish m ∈ g.search seen stack := by
  induction seen, stack using search.induct g generalizing done with
  | case1 seen =>
    have all : ∀ n ∈ seen, done n := fun n hn => by simpa using h.seen_done n hn
    refine ⟨fun n hn => Or.inl (all n hn), fun n m hn step => ?_⟩
    have hn : done n := by simpa [search] using hn
    exact Or.inl (all m (h.done_closed n m hn step))
  | case2 seen k rest ih =>
    have := ih h.finish fun f hf => pending f (List.mem_cons_of_mem _ hf)
    simpa only [search, List.mem_cons, Event.finish.injEq, or_assoc] using this
  | case3 seen k m ms rest ihEnter ihSkip =>
    have valid : ∀ f ∈ (⟨k, ms⟩ :: rest : List Frame), ∀ x ∈ f.pending, x < g.nodeCount := by
      intro f hf x hx
      obtain rfl | hf := List.mem_cons.1 hf
      · exact pending _ List.mem_cons_self x (List.mem_cons_of_mem _ hx)
      · exact pending f (List.mem_cons_of_mem _ hf) x hx
    have lt : m < seen.size := by
      rw [h.size]
      exact pending _ List.mem_cons_self m List.mem_cons_self
    rw [search]
    simp only [List.mem_cons, reduceCtorEq, false_or]
    split
    next new =>
      obtain ⟨held, closed⟩ := ihEnter new (h.enter lt) fun f hf x hx => by
        obtain rfl | hf := List.mem_cons.1 hf
        · exact Step.target_lt (g := g) hx
        · exact valid f hf x hx
      exact ⟨fun n hn => held n (BitSet.mem_add.2 (Or.inl hn)), closed⟩
    next old =>
      have hm : m ∈ seen := by
        by_contra hm
        exact old (BitSet.lacks_iff.2 ⟨lt, hm⟩)
      exact ihSkip (h.skip hm) valid

/-- A search that begins has seen its start and finished nothing. -/
theorem searching_start {start : Nat} (lt : start < g.nodeCount) : g.Searching (fun _ => False)
    ((BitSet.empty g.nodeCount).add start) [⟨start, g.successors start⟩] where
  size := by simp
  seen_done := fun n hn => by simpa [lt] using hn
  done_closed := fun n m hn => hn.elim
  stack_closed := fun f hf m step => by
    obtain rfl : f = ⟨start, g.successors start⟩ := by simpa using hf
    exact Or.inr step

theorem mem_postorder_iff {start n : Nat} :
    n ∈ g.postorder start ↔ n < g.nodeCount ∧ ∃ ns, Walk g.Step start ns n := by
  rw [mem_postorder, events]
  split
  next lt =>
    constructor
    · intro h
      obtain ⟨f, hf, reached⟩ := reached_of_finish_mem_search h
      obtain rfl : f = ⟨start, g.successors start⟩ := by simpa using hf
      obtain rfl | ⟨m, hm, ns, walk⟩ := reached
      · exact ⟨lt, [], Walk.stay⟩
      · have hm : g.Step start m := hm
        have lt : n < g.nodeCount := walk.keeps (P := (· < g.nodeCount))
          (fun x y next _ => next.target_lt) hm.target_lt
        exact ⟨lt, _, Walk.cons hm walk⟩
    · rintro ⟨-, ns, walk⟩
      obtain ⟨held, closed⟩ := closed_of_searching (searching_start lt) fun f hf m hm => by
        obtain rfl : f = ⟨start, g.successors start⟩ := by simpa using hf
        exact Step.target_lt (g := g) hm
      simp only [false_or] at held closed
      exact walk.keeps (P := fun x => Event.finish x ∈ g.search _ _)
        (fun x y next hx => closed x y hx next) (held start (by simp [lt]))
  next ge =>
    refine ⟨fun h => by simp at h, fun ⟨lt, ns, walk⟩ => absurd ?_ ge⟩
    cases ns with
    | nil => exact Walk.nil_iff.1 walk ▸ lt
    | cons m ns =>
      obtain ⟨-, b, next, -⟩ := Walk.cons_iff.1 walk
      exact next.source_lt

/-- A node is reachable if a walk leads to it. -/
theorem mem_reachableFrom {start n : Nat} :
    n ∈ g.reachableFrom start ↔ n < g.nodeCount ∧ ∃ ns, Walk g.Step start ns n := by
  rw [reachableFrom, BitSet.mem_foldl_add, mem_postorder_iff]
  simp only [BitSet.not_mem_empty, false_or, BitSet.size_empty]
  tauto

theorem closeBackwards_step {reached : BitSet} {n : Nat} {rest : List Nat} :
    g.closeBackwards reached (n :: rest) =
      if reached.lacks n then g.closeBackwards (reached.add n) (g.predecessors n ++ rest)
      else g.closeBackwards reached rest := by
  rw [closeBackwards]
  split <;> rfl

@[simp] theorem size_closeBackwards {reached : BitSet} {work : List Nat} :
    (g.closeBackwards reached work).size = reached.size := by
  induction reached, work using closeBackwards.induct g with
  | case1 reached => rw [closeBackwards]
  | case2 reached k rest new ih => rw [closeBackwards_step, if_pos new, ih, BitSet.size_add]
  | case3 reached k rest old ih => rw [closeBackwards_step, if_neg old, ih]

/-- The closure holds nothing but what was reached and what leads to the work. -/
theorem reaches_of_mem_closeBackwards {reached : BitSet} {work : List Nat} {n : Nat}
    (h : n ∈ g.closeBackwards reached work) :
    n ∈ reached ∨ ∃ m ∈ work, ∃ ns, Walk g.Step n ns m := by
  induction reached, work using closeBackwards.induct g with
  | case1 reached => exact Or.inl (by simpa [closeBackwards] using h)
  | case2 reached k rest new ih =>
    rw [closeBackwards_step, if_pos new] at h
    obtain hn | ⟨m, hm, ns, walk⟩ := ih h
    · obtain hn | ⟨rfl, -⟩ := BitSet.mem_add.1 hn
      · exact Or.inl hn
      · exact Or.inr ⟨_, List.mem_cons_self, [], Walk.stay⟩
    · obtain hm | hm := List.mem_append.1 hm
      · exact Or.inr ⟨k, List.mem_cons_self, _, walk.step (step_iff_mem_predecessors.2 hm)⟩
      · exact Or.inr ⟨m, List.mem_cons_of_mem _ hm, ns, walk⟩
  | case3 reached k rest old ih =>
    rw [closeBackwards_step, if_neg old] at h
    exact (ih h).imp_right fun ⟨m, hm, walk⟩ => ⟨m, List.mem_cons_of_mem _ hm, walk⟩

/-- If the steps into reached nodes come from reached nodes or from the work, then the closure
holds what was reached and the work, and all steps into it come from it. -/
theorem closed_closeBackwards {reached : BitSet} {work : List Nat}
    (size : reached.size = g.nodeCount)
    (open_ : ∀ n m, m ∈ reached → g.Step n m → n ∈ reached ∨ n ∈ work) :
    (∀ n ∈ reached, n ∈ g.closeBackwards reached work) ∧
      (∀ n ∈ work, n < g.nodeCount → n ∈ g.closeBackwards reached work) ∧
      ∀ n m, m ∈ g.closeBackwards reached work → g.Step n m →
        n ∈ g.closeBackwards reached work := by
  induction reached, work using closeBackwards.induct g with
  | case1 reached => simpa [closeBackwards] using open_
  | case2 reached k rest new ih =>
    rw [closeBackwards_step, if_pos new]
    obtain ⟨held, worked, closed⟩ := ih (by rw [BitSet.size_add, size]) fun n m hm step => by
      obtain hm | ⟨rfl, -⟩ := BitSet.mem_add.1 hm
      · obtain hn | hn := open_ n m hm step
        · exact Or.inl (BitSet.mem_add.2 (Or.inl hn))
        · obtain rfl | hn := List.mem_cons.1 hn
          · exact Or.inl (BitSet.mem_add.2 (Or.inr ⟨rfl, (BitSet.lacks_iff.1 new).1⟩))
          · exact Or.inr (List.mem_append_right _ hn)
      · exact Or.inr (List.mem_append_left _ (step_iff_mem_predecessors.1 step))
    refine ⟨fun n hn => held n (BitSet.mem_add.2 (Or.inl hn)), fun n hn lt => ?_, closed⟩
    obtain rfl | hn := List.mem_cons.1 hn
    · exact held n (BitSet.mem_add.2 (Or.inr ⟨rfl, (BitSet.lacks_iff.1 new).1⟩))
    · exact worked n (List.mem_append_right _ hn) lt
  | case3 reached k rest old ih =>
    rw [closeBackwards_step, if_neg old]
    have hk : k < g.nodeCount → k ∈ reached := fun lt => by
      by_contra hk
      exact old (BitSet.lacks_iff.2 ⟨size ▸ lt, hk⟩)
    obtain ⟨held, worked, closed⟩ := ih size fun n m hm step => by
      obtain hn | hn := open_ n m hm step
      · exact Or.inl hn
      · obtain rfl | hn := List.mem_cons.1 hn
        · exact Or.inl (hk step.source_lt)
        · exact Or.inr hn
    refine ⟨held, fun n hn lt => ?_, closed⟩
    obtain rfl | hn := List.mem_cons.1 hn
    · exact held n (hk lt)
    · exact worked n hn lt

/-- A node reaches the target if a walk leads from it to the target. -/
theorem mem_reachingTo {target n : Nat} :
    n ∈ g.reachingTo target ↔ n < g.nodeCount ∧ ∃ ns, Walk g.Step n ns target := by
  rw [reachingTo]
  constructor
  · intro h
    have lt := BitSet.lt_size_of_mem h
    rw [size_closeBackwards, BitSet.size_empty] at lt
    obtain ⟨m, hm, walk⟩ := (reaches_of_mem_closeBackwards h).resolve_left BitSet.not_mem_empty
    obtain rfl : m = target := by simpa using hm
    exact ⟨lt, walk⟩
  · rintro ⟨lt, ns, walk⟩
    have begin : ∀ n m, m ∈ BitSet.empty g.nodeCount → g.Step n m →
        n ∈ BitSet.empty g.nodeCount ∨ n ∈ [target] :=
      fun n m hm => absurd hm BitSet.not_mem_empty
    obtain ⟨-, worked, closed⟩ := closed_closeBackwards (BitSet.size_empty _) begin
    have ltTarget : target < g.nodeCount := walk.keeps (P := (· < g.nodeCount))
      (fun x y next _ => next.target_lt) lt
    exact walk.keepsBack (P := (· ∈ g.closeBackwards (.empty g.nodeCount) [target]))
      (fun x y next hy => closed x y hy next) (worked target (by simp) ltTarget)

end Digraph
end FlowAnalysis
