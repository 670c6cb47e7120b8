import FlowAnalysis.Proofs.Digraph.Reachability
import Mathlib.Data.List.Nodup

/-!
The order in which a depth-first search finishes nodes. Main statements: no node finishes twice, and
a successor of a node finishes before it, unless some walk from the start takes no node twice and
comes by the successor to the node.
-/
namespace FlowAnalysis

/-- Of the members of `ns`, `a` comes before `b`. -/
def Precedes {α : Type} (ns : List α) (a b : α) : Prop :=
  ∃ pre post, ns = pre ++ b :: post ∧ a ∈ pre

theorem Precedes.reverse {α : Type} {ns : List α} {a b : α} (h : Precedes ns a b) :
    Precedes ns.reverse b a := by
  obtain ⟨pre, post, rfl, mem⟩ := h
  obtain ⟨first, mid, rfl⟩ := List.append_of_mem mem
  exact ⟨post.reverse ++ b :: mid.reverse, first.reverse, by simp, by simp⟩

theorem Precedes.right_mem {α : Type} {ns : List α} {a b : α} (h : Precedes ns a b) : b ∈ ns := by
  obtain ⟨pre, post, rfl, -⟩ := h
  exact List.mem_append_right _ List.mem_cons_self

section Precedes

variable {α : Type} [DecidableEq α] {ns pre post : List α} {a b : α}

/-- A member of a list without repetition comes after as many as come before it. -/
theorem idxOf_split (nodup : ns.Nodup) (whole : ns = pre ++ b :: post) :
    ns.idxOf b = pre.length := by
  have fresh : b ∉ pre := by
    rw [whole, List.nodup_append] at nodup
    exact fun mem => nodup.2.2 b mem b List.mem_cons_self rfl
  rw [whole, List.idxOf_append_of_notMem fresh, List.idxOf_cons_self, Nat.add_zero]

theorem Precedes.idxOf_lt (h : Precedes ns a b) (nodup : ns.Nodup) : ns.idxOf a < ns.idxOf b := by
  obtain ⟨pre, post, whole, mem⟩ := h
  rw [idxOf_split nodup whole, whole, List.idxOf_append_of_mem mem]
  exact List.idxOf_lt_length_of_mem mem

theorem Precedes.mem_of_split (h : Precedes ns a b) (nodup : ns.Nodup)
    (whole : ns = pre ++ b :: post) : a ∈ pre := by
  obtain ⟨pre', post', whole', mem⟩ := h
  have same : pre'.length = pre.length :=
    (idxOf_split nodup whole').symm.trans (idxOf_split nodup whole)
  exact (List.append_inj (whole'.symm.trans whole) same).1 ▸ mem

theorem precedes_of_idxOf_lt (hb : b ∈ ns) (lt : ns.idxOf a < ns.idxOf b) : Precedes ns a b := by
  obtain ⟨pre, post, whole, fresh⟩ := List.eq_append_cons_of_mem hb
  refine ⟨pre, post, whole, ?_⟩
  by_contra absent
  rw [whole, List.idxOf_append_of_notMem absent, List.idxOf_append_of_notMem fresh,
    List.idxOf_cons_self] at lt
  omega

theorem Precedes.trans {c : α} (h : Precedes ns a b) (h' : Precedes ns b c) (nodup : ns.Nodup) :
    Precedes ns a c :=
  precedes_of_idxOf_lt h'.right_mem (Nat.lt_trans (h.idxOf_lt nodup) (h'.idxOf_lt nodup))

theorem Precedes.asymm (h : Precedes ns a b) (nodup : ns.Nodup) : ¬ Precedes ns b a := fun h' =>
  Nat.lt_asymm (h.idxOf_lt nodup) (h'.idxOf_lt nodup)

end Precedes

namespace Digraph

variable {N E : Type} {g : Digraph N E} {start n m a b : Nat} {ms : List Nat} {seen : BitSet}
  {stack rest : List Frame}

/-- The nodes that a search still has to finish, in order. -/
def finishes (g : Digraph N E) (seen : BitSet) (stack : List Frame) : List Nat :=
  (g.search seen stack).filterMap fun
    | .edge _ _ => none
    | .finish n => some n

theorem finishes_nil : g.finishes seen [] = [] := by
  rw [finishes, search]
  rfl

theorem finishes_finish :
    g.finishes seen (⟨n, []⟩ :: rest) = n :: g.finishes seen rest := by
  rw [finishes, search]
  rfl

theorem finishes_edge : g.finishes seen (⟨n, m :: ms⟩ :: rest) =
    if seen.lacks m then g.finishes (seen.add m) (⟨m, g.successors m⟩ :: ⟨n, ms⟩ :: rest)
    else g.finishes seen (⟨n, ms⟩ :: rest) := by
  rw [finishes, search]
  split <;> rfl

/-- The bottom of the stack finishes last. -/
theorem getLast?_finishes : (g.finishes seen stack).getLast? = (stack.map (·.node)).getLast? := by
  induction seen, stack using search.induct g with
  | case1 seen => rw [finishes_nil, List.map_nil]
  | case2 seen k rest ih =>
    rw [finishes_finish, List.map_cons, List.getLast?_cons, List.getLast?_cons, ih]
  | case3 seen k m ms rest ihEnter ihSkip =>
    rw [finishes_edge]
    split
    next new => exact (ihEnter new).trans List.getLast?_cons_cons
    next old => exact ihSkip

theorem postorder_eq (lt : start < g.nodeCount) : g.postorder start =
    g.finishes ((BitSet.empty g.nodeCount).add start) [⟨start, g.successors start⟩] := by
  rw [postorder, events, if_pos lt]
  rfl

/-- The stack of a search is a walk from its start, and has seen its nodes, none of them twice. -/
structure Stacked (g : Digraph N E) (start : Nat) (seen : BitSet) (stack : List Frame) : Prop where
  walk : ∀ f rest, stack = f :: rest →
    Walk g.Step start (rest.map (·.node)).reverse f.node
  nodup : (stack.map (·.node)).Nodup
  seen : ∀ f ∈ stack, f.node ∈ seen
  pending : ∀ f ∈ stack, ∀ m ∈ f.pending, g.Step f.node m

namespace Stacked

theorem finish (h : g.Stacked start seen (⟨n, []⟩ :: rest)) : g.Stacked start seen rest where
  walk := by
    rintro f below rfl
    have top := h.walk _ _ rfl
    rw [List.map_cons, List.reverse_cons] at top
    exact (Walk.concat_iff.1 top).1
  nodup := (List.nodup_cons.1 h.nodup).2
  seen := fun f hf => h.seen f (List.mem_cons_of_mem _ hf)
  pending := fun f hf => h.pending f (List.mem_cons_of_mem _ hf)

theorem skip (h : g.Stacked start seen (⟨n, m :: ms⟩ :: rest)) :
    g.Stacked start seen (⟨n, ms⟩ :: rest) where
  walk := by
    rintro f below same
    obtain ⟨rfl, rfl⟩ := List.cons.inj same
    exact h.walk ⟨n, m :: ms⟩ rest rfl
  nodup := h.nodup
  seen := List.forall_mem_cons.2 (List.forall_mem_cons.1 h.seen)
  pending := by
    obtain ⟨first, others⟩ := List.forall_mem_cons.1 h.pending
    exact List.forall_mem_cons.2 ⟨fun k hk => first k (List.mem_cons_of_mem _ hk), others⟩

theorem enter (h : g.Stacked start seen (⟨n, m :: ms⟩ :: rest)) (new : seen.lacks m = true) :
    g.Stacked start (seen.add m) (⟨m, g.successors m⟩ :: ⟨n, ms⟩ :: rest) where
  walk := by
    rintro f below same
    obtain ⟨rfl, rfl⟩ := List.cons.inj same
    rw [List.map_cons, List.reverse_cons]
    exact (h.walk ⟨n, m :: ms⟩ rest rfl).step (h.pending _ List.mem_cons_self m List.mem_cons_self)
  nodup := by
    refine List.nodup_cons.2 ⟨fun mem => ?_, h.nodup⟩
    obtain ⟨f, hf, rfl⟩ := List.mem_map.1 mem
    exact (BitSet.lacks_iff.1 new).2 (h.skip.seen f hf)
  seen := by
    refine List.forall_mem_cons.2 ⟨BitSet.mem_add.2 (Or.inr ⟨rfl, (BitSet.lacks_iff.1 new).1⟩), ?_⟩
    exact fun f hf => BitSet.mem_add.2 (Or.inl (h.skip.seen f hf))
  pending := List.forall_mem_cons.2 ⟨fun _ hk => hk, h.skip.pending⟩

/-- Nothing that a search finishes has been finished before, and nothing finishes twice. -/
theorem nodup_finishes (h : g.Stacked start seen stack) :
    (g.finishes seen stack).Nodup ∧
      ∀ n ∈ g.finishes seen stack, n ∈ stack.map (·.node) ∨ n ∉ seen := by
  induction seen, stack using search.induct g with
  | case1 seen => simp [finishes_nil]
  | case2 seen k rest ih =>
    obtain ⟨nodup, fresh⟩ := ih h.finish
    rw [finishes_finish]
    refine ⟨List.nodup_cons.2 ⟨fun mem => ?_, nodup⟩, fun n hn => ?_⟩
    · cases fresh k mem with
      | inl below => exact (List.nodup_cons.1 h.nodup).1 below
      | inr unseen => exact unseen (h.seen _ List.mem_cons_self)
    · obtain rfl | hn := List.mem_cons.1 hn
      · exact Or.inl List.mem_cons_self
      · exact (fresh n hn).imp_left (List.mem_cons_of_mem _)
  | case3 seen k m ms rest ihEnter ihSkip =>
    rw [finishes_edge]
    split
    next new =>
      obtain ⟨nodup, fresh⟩ := ihEnter new (h.enter new)
      refine ⟨nodup, fun n hn => ?_⟩
      cases fresh n hn with
      | inl above =>
        obtain rfl | below := List.mem_cons.1 above
        · exact Or.inr (BitSet.lacks_iff.1 new).2
        · exact Or.inl below
      | inr unseen => exact Or.inr fun old => unseen (BitSet.mem_add.2 (Or.inl old))
    next old => exact ihSkip h.skip

/-- What a search finishes has its successors finished before, or on the stack. -/
theorem finished_or_stacked {done : Nat → Prop} (h : g.Stacked start seen stack)
    (searching : g.Searching done seen stack) {pre post : List Nat}
    (whole : g.finishes seen stack = pre ++ a :: post) (step : g.Step a b) :
    (done b ∨ b ∈ pre) ∨ ∃ ns, Walk g.Step start ns a ∧ (ns ++ [a]).Nodup ∧ b ∈ ns ++ [a] := by
  induction seen, stack using search.induct g generalizing done pre with
  | case1 seen => simp [finishes_nil] at whole
  | case2 seen k rest ih =>
    rw [finishes_finish] at whole
    cases pre with
    | nil =>
      obtain ⟨rfl, -⟩ := List.cons.inj whole
      have known : b ∈ seen :=
        (searching.stack_closed _ List.mem_cons_self b step).resolve_right List.not_mem_nil
      have nodes : ((rest.map (·.node)).reverse ++ [k]).Nodup := by
        simpa using List.nodup_reverse.2 h.nodup
      obtain finished | ⟨f, hf, rfl⟩ := searching.seen_done b known
      · exact Or.inl (Or.inl finished)
      · have mem := List.mem_map_of_mem (f := Frame.node) hf
        refine Or.inr ⟨_, h.walk _ _ rfl, nodes, ?_⟩
        rw [List.mem_append, List.mem_reverse, List.mem_singleton]
        exact (List.mem_cons.1 mem).symm
    | cons x pre =>
      obtain ⟨rfl, later⟩ := List.cons.inj whole
      refine (ih h.finish searching.finish later).imp_left ?_
      rintro ((finished | rfl) | earlier)
      · exact Or.inl finished
      · exact Or.inr List.mem_cons_self
      · exact Or.inr (List.mem_cons_of_mem _ earlier)
  | case3 seen k m ms rest ihEnter ihSkip =>
    rw [finishes_edge] at whole
    split at whole
    next new =>
      exact ihEnter new (h.enter new) (searching.enter (BitSet.lacks_iff.1 new).1) whole
    next old =>
      have lt : m < seen.size := by
        rw [searching.size]
        exact (h.pending _ List.mem_cons_self m List.mem_cons_self).target_lt
      have known : m ∈ seen := by
        by_contra unseen
        exact old (BitSet.lacks_iff.2 ⟨lt, unseen⟩)
      exact ihSkip h.skip (searching.skip known) whole

end Stacked

theorem stacked_start (lt : start < g.nodeCount) : g.Stacked start
    ((BitSet.empty g.nodeCount).add start) [⟨start, g.successors start⟩] where
  walk := by
    rintro f rest same
    obtain ⟨rfl, rfl⟩ := List.cons.inj same
    exact Walk.stay
  nodup := List.nodup_singleton _
  seen := by simp [lt]
  pending := by
    rintro f hf
    obtain rfl := List.mem_singleton.1 hf
    exact fun _ hm => hm

theorem nodup_postorder (g : Digraph N E) (start : Nat) : (g.postorder start).Nodup := by
  by_cases lt : start < g.nodeCount
  · rw [postorder_eq lt]
    exact (stacked_start lt).nodup_finishes.1
  · simp [postorder, events, lt]

theorem getLast?_postorder (lt : start < g.nodeCount) :
    (g.postorder start).getLast? = some start := by
  rw [postorder_eq lt, getLast?_finishes]
  rfl

/-- A successor of a node finishes before it, or is on a walk to it that takes no node twice. -/
theorem precedes_postorder (ha : a ∈ g.postorder start) (step : g.Step a b) :
    Precedes (g.postorder start) b a ∨
      ∃ ns, Walk g.Step start ns a ∧ (ns ++ [a]).Nodup ∧ b ∈ ns ++ [a] := by
  have lt : start < g.nodeCount := by
    by_contra ge
    simp [postorder, events, ge] at ha
  obtain ⟨pre, post, whole⟩ := List.append_of_mem ha
  refine Or.imp_left (fun mem => ⟨pre, post, whole, mem⟩) ?_
  rw [postorder_eq lt] at whole
  simpa using (stacked_start lt).finished_or_stacked (searching_start lt) whole step

end Digraph
end FlowAnalysis
