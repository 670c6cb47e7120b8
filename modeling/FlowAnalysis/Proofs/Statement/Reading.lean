import FlowAnalysis.Proofs.Expr.Reading
import FlowAnalysis.Proofs.FlowGraph.Grouping
import FlowAnalysis.Proofs.Statement.Offence
import FlowAnalysis.Statement.Printer
import FlowAnalysis.Statement.Reader

/-!
Printed programs read back. Main statement: the text of a program shows its members with all
sequences spliced, so programs have the same text when they differ in grouping only.
-/
namespace FlowAnalysis

open Text (Token)

namespace Line

/-- The content of the line, without indentation. -/
def text : Line → String
  | skip => "skip"
  | assign x e => x ++ " := " ++ e.text
  | loop c => "while (" ++ c.text ++ ") \x7b"
  | branch c => "if (" ++ c.text ++ ") \x7b"
  | otherwise => "\x7d else \x7b"
  | close => "\x7d"

def names : Line → List Variable
  | assign x e => x :: e.reads
  | loop c => c.reads
  | branch c => c.reads
  | _ => []

variable {l : Line} {ls : List Line} {c : Expr} {rest : List Char}

/-- What comes after the opening parenthesis of a condition. -/
theorem scan_condition (named : ∀ x ∈ c.reads, Variable.isIdentifier x = true) :
    .opening :: Token.scan (c.text.toList ++ (") \x7b".toList ++ '\n' :: rest)) =
      conditionTokens c ++ .newline :: Token.scan rest := by
  have closed : Token.Parted (") \x7b".toList ++ '\n' :: rest) := Token.parted_cons (c := ')') rfl
  have closing : Token.scan (") \x7b".toList ++ '\n' :: rest) =
      [.closing, .word "\x7b"] ++ .newline :: Token.scan rest := rfl
  rw [Expr.text, Expr.scan_textAt named closed, closing]
  simp [conditionTokens]

theorem scan_text (named : ∀ x ∈ l.names, Variable.isIdentifier x = true) :
    Token.scan (l.text.toList ++ '\n' :: rest) = l.tokens ++ .newline :: Token.scan rest := by
  cases l with
  | skip => rfl
  | otherwise => rfl
  | close => rfl
  | assign x e =>
    obtain ⟨target, value⟩ := List.forall_mem_cons.1 named
    have ended : Token.Parted ('\n' :: rest) := Token.parted_cons rfl
    have apart : Token.Parted (" := ".toList ++ (e.text.toList ++ '\n' :: rest)) :=
      Token.parted_cons (c := ' ') rfl
    have middle : Token.scan (" := ".toList ++ (e.text.toList ++ '\n' :: rest)) =
        .word ":=" :: Token.scan (e.text.toList ++ '\n' :: rest) := rfl
    simp only [text, String.toList_append, List.append_assoc]
    rw [Expr.scan_name target apart, middle, Expr.text, Expr.scan_textAt value ended]
    rfl
  | loop c =>
    have start : ∀ cs, Token.scan ("while (".toList ++ cs) =
        .word "while" :: .opening :: Token.scan cs := fun _ => rfl
    simp only [text, String.toList_append, List.append_assoc]
    rw [start, scan_condition named]
    rfl
  | branch c =>
    have start : ∀ cs, Token.scan ("if (".toList ++ cs) =
        .word "if" :: .opening :: Token.scan cs := fun _ => rfl
    simp only [text, String.toList_append, List.append_assoc]
    rw [start, scan_condition named]
    rfl

/-- The tokens of the lines, each up to its end. -/
def allTokens (ls : List Line) : List Token := ls.flatMap fun l => l.tokens ++ [.newline]

@[simp] theorem allTokens_nil : allTokens [] = [] := rfl

@[simp] theorem allTokens_cons :
    allTokens (l :: ls) = l.tokens ++ .newline :: allTokens ls := by
  simp [allTokens]

@[simp] theorem allTokens_append {ls' : List Line} :
    allTokens (ls ++ ls') = allTokens ls ++ allTokens ls' := List.flatMap_append

/-- Indentation leaves no trace. -/
theorem scan_line (named : ∀ x ∈ l.names, Variable.isIdentifier x = true) (depth : Nat)
    (rest : List Char) : Token.scan ((Statement.line depth l.text).toList ++ rest) =
      l.tokens ++ .newline :: Token.scan rest := by
  have whole : (Statement.line depth l.text).toList ++ rest =
      List.replicate (4 * depth) ' ' ++ (l.text.toList ++ '\n' :: rest) := by
    simp [Statement.line]
  rw [whole, Token.scan_replicate_blank, scan_text named]

theorem tokens_ne_nil (l : Line) : l.tokens ≠ [] := by
  cases l <;> exact List.cons_ne_nil _ _

theorem newline_not_mem_tokens (l : Line) : .newline ∉ l.tokens := by
  cases l <;> simp [tokens, conditionTokens, Expr.Lexeme.token_ne_newline]

theorem condition?_conditionTokens (named : ∀ x ∈ c.reads, Variable.isIdentifier x = true) :
    condition? (conditionTokens c) = some c := by
  simp [condition?, conditionTokens, Expr.ofTokens?_lexemesAt named]

theorem ofTokens?_tokens (named : ∀ x ∈ l.names, Variable.isIdentifier x = true) :
    ofTokens? l.tokens = some l := by
  cases l with
  | skip => rfl
  | otherwise => rfl
  | close => rfl
  | assign x e =>
    obtain ⟨target, value⟩ := List.forall_mem_cons.1 named
    simp [tokens, ofTokens?, target, Expr.ofTokens?_lexemesAt value]
  | loop c =>
    have header : ofTokens? (loop c).tokens = loop <$> condition? (conditionTokens c) := rfl
    rw [header, condition?_conditionTokens named, Option.map_eq_map, Option.map_some]
  | branch c =>
    have header : ofTokens? (branch c).tokens = branch <$> condition? (conditionTokens c) := rfl
    rw [header, condition?_conditionTokens named, Option.map_eq_map, Option.map_some]

theorem splitOn_allTokens : (allTokens ls).splitOn .newline = ls.map tokens ++ [[]] := by
  induction ls with
  | nil => rfl
  | cons l ls ih =>
    have within : ∀ t ∈ l.tokens, (t == .newline) = false := fun t ht =>
      beq_false_of_ne (ne_of_mem_of_not_mem ht l.newline_not_mem_tokens)
    rw [List.splitOn] at ih ⊢
    rw [allTokens_cons, List.splitOnP_append_cons_of_forall_mem within _ (beq_self_eq_true _), ih,
      List.map_cons, List.cons_append]

theorem mapM_ofTokens? (named : ∀ l ∈ ls, ∀ x ∈ l.names, Variable.isIdentifier x = true) :
    (ls.map tokens).mapM ofTokens? = some ls := by
  induction ls with
  | nil => rfl
  | cons l ls ih =>
    obtain ⟨head, tail⟩ := List.forall_mem_cons.1 named
    simp [ofTokens?_tokens head, ih tail]

/-- Lines read back from their tokens. -/
theorem mapM_ofTokens?_pieces (named : ∀ l ∈ ls, ∀ x ∈ l.names, Variable.isIdentifier x = true) :
    (((allTokens ls).splitOn .newline).filter (· ≠ [])).mapM ofTokens? = some ls := by
  have kept : (ls.map tokens ++ [[]]).filter (· ≠ []) = ls.map tokens := by
    simp [List.filter_append, List.filter_eq_self, tokens_ne_nil]
  rw [splitOn_allTokens, kept, mapM_ofTokens? named]

end Line

namespace Statement

/-- Every name that the statement holds. -/
def names (s : Statement) : List Variable := (s.preorder .sequence).flatMap (·.2.ownNames)

mutual

theorem names_lines (s : Statement) (block : BlockKind) :
    s.lines.flatMap Line.names = (s.preorder block).flatMap (·.2.ownNames) := by
  cases s with
  | skip => rfl
  | assign x e => simp [lines, preorder, Line.names, ownNames]
  | seq body => simpa [lines, preorder, ownNames] using names_linesAll body
  | loop c body =>
    simp [lines, preorder, Line.names, ownNames, names_lines body .loopBody]
  | branch c t f =>
    simp [lines, preorder, Line.names, ownNames, names_lines t .trueBranch,
      names_lines f .falseBranch]

theorem names_linesAll (body : List Statement) :
    (linesAll body).flatMap Line.names = (preorderAll body).flatMap (·.2.ownNames) := by
  cases body with
  | nil => rfl
  | cons s rest =>
    simp [linesAll, preorderAll, names_lines s .sequence, names_linesAll rest]

end

mutual

/-- The text of a statement has the tokens of its lines. -/
theorem scan_textAt (s : Statement) (depth : Nat) (rest : List Char)
    (named : ∀ l ∈ s.lines, ∀ x ∈ l.names, Variable.isIdentifier x = true) :
    Token.scan ((s.textAt depth).toList ++ rest) = Line.allTokens s.lines ++ Token.scan rest := by
  cases s with
  | skip =>
    have content := Line.scan_line (List.forall_mem_singleton.1 named) depth rest
    simpa [textAt, lines, Line.text] using content
  | assign x e =>
    have content := Line.scan_line (List.forall_mem_singleton.1 named) depth rest
    simpa [textAt, lines, Line.text] using content
  | seq body => exact scan_textAllAt body depth rest named
  | loop c body =>
    simp only [lines, List.cons_append, List.forall_mem_cons, List.forall_mem_append] at named
    obtain ⟨header, within, closed, -⟩ := named
    have text : (loop c body).textAt depth = line depth (Line.loop c).text ++
        body.textAt (depth + 1) ++ line depth Line.close.text := rfl
    simp only [text, String.toList_append, List.append_assoc]
    rw [Line.scan_line header, scan_textAt body (depth + 1) _ within, Line.scan_line closed]
    simp [lines]
  | branch c t f =>
    simp only [lines, List.cons_append, List.append_assoc, List.forall_mem_cons,
      List.forall_mem_append] at named
    obtain ⟨header, yes, between, no, closed, -⟩ := named
    have text : (branch c t f).textAt depth = line depth (Line.branch c).text ++
        t.textAt (depth + 1) ++ line depth Line.otherwise.text ++ f.textAt (depth + 1) ++
          line depth Line.close.text := rfl
    simp only [text, String.toList_append, List.append_assoc]
    rw [Line.scan_line header, scan_textAt t (depth + 1) _ yes, Line.scan_line between,
      scan_textAt f (depth + 1) _ no, Line.scan_line closed]
    simp [lines]

theorem scan_textAllAt (body : List Statement) (depth : Nat) (rest : List Char)
    (named : ∀ l ∈ linesAll body, ∀ x ∈ l.names, Variable.isIdentifier x = true) :
    Token.scan ((textAllAt depth body).toList ++ rest) =
      Line.allTokens (linesAll body) ++ Token.scan rest := by
  cases body with
  | nil => rfl
  | cons s more =>
    obtain ⟨first, others⟩ := List.forall_mem_append.1 named
    rw [textAllAt, String.toList_append, List.append_assoc, scan_textAt s depth _ first,
      scan_textAllAt more depth rest others, linesAll, Line.allTokens_append, List.append_assoc]

end

mutual

/-- The reader goes through the lines of a statement and adds its members to those before. -/
theorem readLines_lines (s : Statement) (stack : List Block) (done : List Statement)
    (rest : List Line) : readLines stack done (s.lines ++ rest) =
      readLines stack (done ++ s.flat) rest := by
  cases s with
  | skip => simp [lines, flat, readLines]
  | assign x e => simp [lines, flat, readLines]
  | seq body => exact readLines_linesAll body stack done rest
  | loop c body =>
    simp only [lines, flat, List.cons_append, List.append_assoc, readLines]
    rw [readLines_lines body]
    simp [readLines]
  | branch c t f =>
    simp only [lines, flat, List.cons_append, List.append_assoc, readLines]
    rw [readLines_lines t]
    simp only [readLines]
    rw [readLines_lines f]
    simp [readLines]

theorem readLines_linesAll (body : List Statement) (stack : List Block) (done : List Statement)
    (rest : List Line) : readLines stack done (linesAll body ++ rest) =
      readLines stack (done ++ flatAll body) rest := by
  cases body with
  | nil => simp [linesAll, flatAll]
  | cons s more =>
    rw [linesAll, List.append_assoc, readLines_lines s, readLines_linesAll more, flatAll,
      List.append_assoc]

end

variable {s t : Statement}

/-- The text of a program shows its members. -/
theorem ofText?_text (named : ∀ x ∈ s.names, Variable.isIdentifier x = true) :
    ofText? s.text = some s.flat := by
  have ofLines : ∀ l ∈ s.lines, ∀ x ∈ l.names, Variable.isIdentifier x = true := by
    intro l hl x hx
    refine named x ?_
    rw [names, ← names_lines]
    exact List.mem_flatMap.2 ⟨l, hl, hx⟩
  have tokens : Token.scan s.text.toList = Line.allTokens s.lines := by
    have whole := scan_textAt s 0 [] ofLines
    rwa [List.append_nil, Token.scan_nil, List.append_nil] at whole
  have read := readLines_lines s [] [] []
  rw [List.append_nil] at read
  simp only [ofText?, tokens, Line.mapM_ofTokens?_pieces ofLines, Option.bind_eq_bind,
    Option.bind_some, read, List.nil_append, readLines]

theorem textAllAt_append {xs ys : List Statement} {depth : Nat} :
    textAllAt depth (xs ++ ys) = textAllAt depth xs ++ textAllAt depth ys := by
  induction xs with
  | nil => simp [textAllAt]
  | cons s rest ih => simp only [List.cons_append, textAllAt, ih, String.append_assoc]

mutual

/-- Sequences leave no trace in the text. -/
theorem textAllAt_flat (s : Statement) (depth : Nat) : textAllAt depth s.flat = s.textAt depth := by
  cases s with
  | skip => simp [flat, textAllAt]
  | assign x e => simp [flat, textAllAt]
  | seq body => exact textAllAt_flatAll body depth
  | loop c body => simp [flat, textAllAt, textAt, textAllAt_flat body]
  | branch c t f => simp [flat, textAllAt, textAt, textAllAt_flat t, textAllAt_flat f]

theorem textAllAt_flatAll (body : List Statement) (depth : Nat) :
    textAllAt depth (flatAll body) = textAllAt depth body := by
  cases body with
  | nil => rfl
  | cons s rest =>
    rw [flatAll, textAllAt_append, textAllAt_flat s, textAllAt_flatAll rest, textAllAt]

end

/-- The names of an accepted program show something, so regular ones are identifiers. -/
theorem isIdentifier_of_issues (accepted : s.issues .sequence = [])
    (regular : ∀ x ∈ s.names, Variable.regular x = true) :
    ∀ x ∈ s.names, Variable.isIdentifier x = true := by
  intro x hx
  obtain ⟨p, within, own⟩ := List.mem_flatMap.1 hx
  have some : x ≠ "" := by
    rintro rfl
    exact (issues_eq_nil_iff.1 accepted p within).2 "" own rfl
  simp [Variable.isIdentifier, some, regular x hx]

/-- Two programs have the same text if, and only if, they differ in grouping only. -/
theorem text_eq_iff_flat_eq {g h : FlowGraph} (built : FlowGraph.build s = .ok g)
    (built' : FlowGraph.build t = .ok h) (regular : ∀ x ∈ s.names, Variable.regular x = true)
    (regular' : ∀ x ∈ t.names, Variable.regular x = true) : s.text = t.text ↔ s.flat = t.flat := by
  constructor
  · intro same
    have read := ofText?_text (isIdentifier_of_issues (FlowGraph.build_eq_ok.1 built).1 regular)
    have read' := ofText?_text (isIdentifier_of_issues (FlowGraph.build_eq_ok.1 built').1 regular')
    exact Option.some.inj (read.symm.trans (same ▸ read'))
  · intro same
    rw [text, text, ← textAllAt_flat s, ← textAllAt_flat t, same]

theorem text_eq_iff_flat_eq_grouped :
    FlowGraph.build groupedFirst = .ok (.ofStatement groupedFirst) ∧
      FlowGraph.build groupedLast = .ok (.ofStatement groupedLast) ∧
      (∀ x ∈ groupedFirst.names, Variable.regular x = true) ∧
      (∀ x ∈ groupedLast.names, Variable.regular x = true) ∧
      groupedFirst ≠ groupedLast ∧ groupedFirst.text = groupedLast.text := by
  have built : FlowGraph.build groupedFirst = .ok (.ofStatement groupedFirst) :=
    FlowGraph.build_eq_ok.2 ⟨by decide, rfl⟩
  have built' : FlowGraph.build groupedLast = .ok (.ofStatement groupedLast) :=
    FlowGraph.build_eq_ok.2 ⟨by decide, rfl⟩
  have regular : ∀ x ∈ groupedFirst.names, Variable.regular x = true := by decide
  have regular' : ∀ x ∈ groupedLast.names, Variable.regular x = true := by decide
  have same := (text_eq_iff_flat_eq built built' regular regular').2 rfl
  exact ⟨built, built', regular, regular', nofun, same⟩

end Statement
end FlowAnalysis
