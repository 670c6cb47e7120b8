import FlowAnalysis.Statement.Issue
import Mathlib.Data.List.DropRight
import Mathlib.Data.List.TakeWhile

/-!
What a program does wrong, statement by statement. Main statements: the issues of a program are
those of its statements, in the order in which the statements begin; so the first issue is that of
the first statement that does wrong.
-/
namespace FlowAnalysis

/-- What is left without the blanks at both ends. -/
def Text.trim (s : String) : String :=
  String.ofList ((s.toList.dropWhile isBlank).rdropWhile isBlank)

theorem Text.trim_eq_empty_iff {s : String} : trim s = "" ↔ blank s = true := by
  have whole := List.takeWhile_append_dropWhile (p := isBlank) (l := s.toList)
  rw [trim, String.ofList_eq_empty_iff, List.rdropWhile_eq_nil_iff, blank, ← whole,
    List.all_append, whole, Bool.and_eq_true, List.all_eq_true, List.all_eq_true]
  exact ⟨fun blanks => ⟨fun c hc => List.mem_takeWhile_imp hc, blanks⟩, And.right⟩

theorem Variable.issue?_eq_some_iff {x : Variable} {i : Issue} :
    x.issue? = some i ↔ Text.trim x = "" ∧ i = .blankName := by
  rw [Variable.issue?, Variable.wellNamed, Text.trim_eq_empty_iff]
  cases Text.blank x <;> simp [eq_comm]

theorem Expr.issue?_eq_some_iff {e : Expr} {i : Issue} :
    e.issue? = some i ↔ (∃ x ∈ e.reads, Text.trim x = "") ∧ i = .blankName := by
  have blank : e.wellNamed = false ↔ ∃ x ∈ e.reads, Text.trim x = "" := by
    simp [Expr.wellNamed, Variable.wellNamed, Text.trim_eq_empty_iff]
  rw [Expr.issue?, ← blank]
  cases e.wellNamed <;> simp [eq_comm]

namespace Statement

/-- The names that a statement itself holds, without its parts. -/
def ownNames : Statement → List Variable
  | skip => []
  | assign x e => x :: e.reads
  | seq _ => []
  | loop c _ => c.reads
  | branch c _ _ => c.reads

/-- By itself a statement that stands where `block` says does wrong in one of two ways. -/
inductive Offends : BlockKind → Statement → Issue → Prop
  | blankName {block s x} (own : x ∈ ownNames s) (blank : Text.trim x = "") :
    Offends block s .blankName
  | emptyBlock {block} : Offends block (seq []) (.emptyBlock block)

mutual

/-- The statements within a statement, itself included, in the order in which they begin, each with
the place that it fills. -/
def preorder (block : BlockKind) : Statement → List (BlockKind × Statement)
  | skip => [(block, skip)]
  | assign x e => [(block, assign x e)]
  | seq body => (block, seq body) :: preorderAll body
  | loop c body => (block, loop c body) :: body.preorder .loopBody
  | branch c t f =>
    (block, branch c t f) :: (t.preorder .trueBranch ++ f.preorder .falseBranch)

def preorderAll : List Statement → List (BlockKind × Statement)
  | [] => []
  | s :: rest => s.preorder .sequence ++ preorderAll rest

end

/-- What a statement does wrong by itself. -/
def offence? (block : BlockKind) : Statement → Option Issue
  | seq [] => some (.emptyBlock block)
  | s => s.ownIssue?

variable {s : Statement} {block : BlockKind} {i : Issue}

theorem ownIssue?_eq_some_iff :
    s.ownIssue? = some i ↔ (∃ x ∈ s.ownNames, Text.trim x = "") ∧ i = .blankName := by
  cases s with
  | skip => simp [ownIssue?, ownNames]
  | assign x e =>
    rw [ownIssue?, Option.or_eq_some_iff, Variable.issue?_eq_some_iff, Expr.issue?_eq_some_iff,
      Option.eq_none_iff_forall_not_mem]
    simp only [Option.mem_def, Variable.issue?_eq_some_iff, ownNames, List.exists_mem_cons_iff]
    grind
  | seq body => simp [ownIssue?, ownNames]
  | loop c body => exact Expr.issue?_eq_some_iff
  | branch c t f => exact Expr.issue?_eq_some_iff

theorem offence?_eq_some_iff : s.offence? block = some i ↔ Offends block s i := by
  constructor
  · intro found
    unfold offence? at found
    split at found
    · obtain rfl := Option.some.inj found
      exact .emptyBlock
    · obtain ⟨⟨x, own, blank⟩, rfl⟩ := ownIssue?_eq_some_iff.1 found
      exact .blankName own blank
  · intro offends
    cases offends with
    | emptyBlock => rfl
    | blankName own blank =>
      unfold offence?
      split
      · cases own
      · exact ownIssue?_eq_some_iff.2 ⟨⟨_, own, blank⟩, rfl⟩

theorem filterMap_cons_toList {α β : Type} {f : α → Option β} {a : α} {l : List α} :
    (a :: l).filterMap f = (f a).toList ++ l.filterMap f := by
  cases h : f a <;> simp [h]

mutual

/-- The issues of a statement are those of the statements within it, each by itself. -/
theorem issues_eq_filterMap (s : Statement) (block : BlockKind) :
    s.issues block = (s.preorder block).filterMap fun (b, t) => t.offence? b := by
  cases s with
  | skip => rfl
  | assign x e => rw [preorder, filterMap_cons_toList, List.filterMap_nil, List.append_nil]; rfl
  | seq body =>
    cases body with
    | nil => rfl
    | cons s rest =>
      rw [preorder, filterMap_cons_toList, ← issuesAll_eq_filterMap (s :: rest)]
      rfl
  | loop c body =>
    rw [issues, issues_eq_filterMap body .loopBody, preorder, filterMap_cons_toList]
    rfl
  | branch c t f =>
    rw [issues, issues_eq_filterMap t .trueBranch, issues_eq_filterMap f .falseBranch, preorder,
      filterMap_cons_toList, List.filterMap_append, List.append_assoc]
    rfl

theorem issuesAll_eq_filterMap (body : List Statement) :
    issuesAll body = (preorderAll body).filterMap fun (b, t) => t.offence? b := by
  cases body with
  | nil => rfl
  | cons s rest =>
    rw [issuesAll, preorderAll, List.filterMap_append, issues_eq_filterMap s .sequence,
      issuesAll_eq_filterMap rest]

end

/-- There are no issues when all names show something and no sequence is empty. -/
theorem issues_eq_nil_iff : s.issues block = [] ↔
    ∀ p ∈ s.preorder block, p.2 ≠ seq [] ∧ ∀ x ∈ p.2.ownNames, Text.trim x ≠ "" := by
  rw [issues_eq_filterMap, List.filterMap_eq_nil_iff]
  refine forall₂_congr fun p _ => ?_
  rw [Option.eq_none_iff_forall_not_mem]
  simp only [Option.mem_def, offence?_eq_some_iff]
  constructor
  · intro none
    refine ⟨fun empty => none (.emptyBlock p.1) (empty ▸ .emptyBlock), fun x own blank => ?_⟩
    exact none .blankName (.blankName own blank)
  · rintro ⟨full, shown⟩ i offends
    generalize h : p.2 = t at offends full
    cases offends with
    | emptyBlock => exact full rfl
    | blankName own blank => exact shown _ (h ▸ own) blank

/-- The first issue is what the first statement that does wrong does. -/
theorem exists_issues_eq_cons_iff : (∃ rest, s.issues block = i :: rest) ↔
    ∃ before p after, s.preorder block = before ++ p :: after ∧
      (∀ q ∈ before, ∀ j, ¬ Offends q.1 q.2 j) ∧ Offends p.1 p.2 i := by
  simp only [issues_eq_filterMap, List.filterMap_eq_cons_iff, Option.eq_none_iff_forall_not_mem,
    Option.mem_def, offence?_eq_some_iff]
  constructor
  · rintro ⟨_, before, p, after, order, none, offends, -⟩
    exact ⟨before, p, after, order, none, offends⟩
  · rintro ⟨before, p, after, order, none, offends⟩
    exact ⟨_, before, p, after, order, none, offends, rfl⟩

end Statement
end FlowAnalysis
