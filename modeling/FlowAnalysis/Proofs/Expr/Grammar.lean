import FlowAnalysis.Expr.Reader

/-!
The grammar of printed expressions. Main statements: the reader accepts the sentences of the grammar
and nothing else, and each sentence shows one expression.
-/
namespace FlowAnalysis.Expr

/-- The lexemes show an expression where operators below precedence `p` need parentheses. Operators
of one precedence associate to the left: the right operand of each stands one level higher. -/
inductive Sentence : Nat → List Lexeme → Expr → Prop
  | name {p x} : Sentence p [.name x] (.var x)
  | number {p n} : Sentence p [.number n] (.const n)
  | parens {p ts e} (inner : Sentence 0 ts e) : Sentence p (.opening :: (ts ++ [.closing])) e
  | binary {p op ls rs l r} (le : p ≤ op.precedence) (left : Sentence op.precedence ls l)
    (right : Sentence (op.precedence + 1) rs r) :
    Sentence p (ls ++ .operator op :: rs) (.binary op l r)

/-- The lexemes `us` have left `stack` behind, and the operand after them stands at level `p`. -/
inductive Opened : Nat → List Waiting → List Lexeme → Prop
  | start : Opened 0 [] []
  | parenthesis {p stack us} (before : Opened p stack us) :
    Opened 0 (.parenthesis :: stack) (us ++ [.opening])
  | operator {p stack us op ls l} (before : Opened p stack us) (le : p ≤ op.precedence)
    (left : Sentence op.precedence ls l) :
    Opened (op.precedence + 1) (.operator l op :: stack) (us ++ ls ++ [.operator op])

variable {p q : Nat} {ts us es rest : List Lexeme} {e f l r : Expr} {op : BinaryOp}
  {stack : List Waiting}

theorem Sentence.weaken (h : Sentence p ts e) (le : q ≤ p) : Sentence q ts e := by
  cases h with
  | name => exact .name
  | number => exact .number
  | parens inner => exact .parens inner
  | binary le' left right => exact .binary (Nat.le_trans le le') left right

/-- An operator on top of the stack binds more loosely than precedence `p`. -/
def Looser (p : Nat) (stack : List Waiting) : Prop :=
  ∀ l op, stack.head? = some (.operator l op) → op.precedence < p

/-- An operator that comes next binds no more tightly than precedence `p`. -/
def NextAtMost (p : Nat) (ts : List Lexeme) : Prop :=
  ∀ op, ts.head? = some (.operator op) → op.precedence ≤ p

theorem looser_operator (lt : op.precedence < p) : Looser p (.operator l op :: stack) := by
  intro l' op' top
  obtain ⟨-, rfl⟩ : l = l' ∧ op = op' := by simpa using top
  exact lt

theorem nextAtMost_operator (le : op.precedence ≤ p) : NextAtMost p (.operator op :: ts) := by
  intro op' next
  obtain rfl : op = op' := by simpa using next
  exact le

theorem complete_operator : complete p (.operator l op :: stack) e =
    if p ≤ op.precedence then complete p stack (.binary op l e)
    else (.operator l op :: stack, e) := by
  rw [complete]

theorem complete_of_looser (h : Looser p stack) : complete p stack e = (stack, e) := by
  unfold complete
  split
  next l op rest => rw [if_neg (Nat.not_le.2 (h l op rfl))]
  next => rfl

/-- An operator takes its right operand unless a tighter one follows. -/
theorem readOperator_operator (next : NextAtMost op.precedence ts) :
    readOperator (.operator l op :: stack) r ts = readOperator stack (.binary op l r) ts := by
  cases ts with
  | nil => simp only [readOperator, complete_operator, Nat.zero_le, if_true]
  | cons t ts =>
    cases t with
    | closing => simp only [readOperator, complete_operator, Nat.zero_le, if_true]
    | operator op' =>
      have le : op'.precedence ≤ op.precedence := next op' rfl
      simp only [readOperator, complete_operator, le, if_true]
    | opening => simp only [readOperator]
    | name x => simp only [readOperator]
    | number n => simp only [readOperator]

/-- The reader goes through a sentence and has its expression then, whatever waits before it and
comes after it, if neither takes a part of it. -/
theorem Sentence.readOperand (h : Sentence p ts e) (looser : Looser p stack)
    (next : NextAtMost p rest) : readOperand stack (ts ++ rest) = readOperator stack e rest := by
  induction h generalizing stack rest with
  | name => rw [List.singleton_append, Expr.readOperand]
  | number => rw [List.singleton_append, Expr.readOperand]
  | @parens p ts e inner ih =>
    have within : Looser 0 (.parenthesis :: stack) := nofun
    have ended : NextAtMost 0 (.closing :: rest) := nofun
    rw [List.cons_append, List.append_assoc, List.singleton_append, Expr.readOperand,
      ih within ended, readOperator, complete_of_looser within]
  | @binary p op ls rs l r le left right ihLeft ihRight =>
    have before : Looser op.precedence stack := fun l' op' top =>
      Nat.lt_of_lt_of_le (looser l' op' top) le
    have after : NextAtMost op.precedence rest := fun op' first =>
      Nat.le_trans (next op' first) le
    have afterRight : NextAtMost (op.precedence + 1) rest := fun op' first =>
      Nat.le_succ_of_le (after op' first)
    calc Expr.readOperand stack (ls ++ .operator op :: rs ++ rest)
        = Expr.readOperand stack (ls ++ .operator op :: (rs ++ rest)) := by simp
      _ = readOperator stack l (.operator op :: (rs ++ rest)) :=
          ihLeft before (nextAtMost_operator (Nat.le_refl _))
      _ = Expr.readOperand (.operator l op :: stack) (rs ++ rest) := by
          rw [readOperator, complete_of_looser before]
      _ = readOperator (.operator l op :: stack) r rest :=
          ihRight (looser_operator (Nat.lt_succ_self _)) afterRight
      _ = readOperator stack (.binary op l r) rest := readOperator_operator after

theorem Opened.complete (h : Opened p stack us) (operand : Sentence (max p q) es e) :
    ∃ p' us' es', Opened p' (complete q stack e).1 us' ∧ p' ≤ q ∧
      Sentence q es' (complete q stack e).2 ∧ us' ++ es' = us ++ es := by
  induction h generalizing e es with
  | start =>
    exact ⟨0, [], es, .start, Nat.zero_le q, operand.weaken (Nat.le_max_right 0 q), rfl⟩
  | @parenthesis p stack us before ih =>
    exact ⟨0, _, es, .parenthesis before, Nat.zero_le q, operand.weaken (Nat.le_max_right 0 q), rfl⟩
  | @operator p stack us op ls l before le left ih =>
    rw [complete_operator]
    split
    next tight =>
      have right : Sentence (op.precedence + 1) es e := operand.weaken (Nat.le_max_left _ q)
      obtain ⟨p', us', es', opened, low, sentence, same⟩ :=
        ih (.binary (Nat.max_le.2 ⟨le, tight⟩) left right)
      exact ⟨p', us', es', opened, low, sentence, by simp [same]⟩
    next loose =>
      have high : op.precedence + 1 ≤ q := Nat.lt_of_not_le loose
      exact ⟨_, _, es, .operator before le left, high, operand.weaken (Nat.le_max_right _ q), rfl⟩

/-- What the reader accepts makes a sentence with what it has read before. -/
theorem sentence_of_read (ts : List Lexeme) :
    (∀ p stack us, Opened p stack us → readOperand stack ts = some f → Sentence 0 (us ++ ts) f) ∧
      ∀ p stack us es e, Opened p stack us → (∀ q, Sentence q es e) →
        readOperator stack e ts = some f → Sentence 0 (us ++ es ++ ts) f := by
  induction ts with
  | nil =>
    refine ⟨fun p stack us opened read => by simp [readOperand] at read, ?_⟩
    intro p stack us es e opened operand read
    obtain ⟨p', us', es', left, -, sentence, same⟩ := opened.complete (q := 0) (operand _)
    rw [readOperator] at read
    split at read
    next e' all =>
      rw [all] at left sentence
      cases left with
      | start =>
        obtain rfl : e' = f := by simpa using read
        simpa [← same] using sentence
    next => cases read
  | cons t ts ih =>
    obtain ⟨ihOperand, ihOperator⟩ := ih
    constructor
    · intro p stack us opened read
      cases t with
      | opening =>
        rw [readOperand] at read
        simpa using ihOperand _ _ _ (.parenthesis opened) read
      | name x =>
        rw [readOperand] at read
        simpa using ihOperator _ _ _ _ _ opened (fun _ => .name) read
      | number n =>
        rw [readOperand] at read
        simpa using ihOperator _ _ _ _ _ opened (fun _ => .number) read
      | closing => simp [readOperand] at read
      | operator op => simp [readOperand] at read
    · intro p stack us es e opened operand read
      cases t with
      | closing =>
        obtain ⟨p', us', es', left, -, sentence, same⟩ := opened.complete (q := 0) (operand _)
        rw [readOperator] at read
        split at read
        next stack' e' all =>
          rw [all] at left sentence
          cases left with
          | parenthesis before =>
            have whole := ihOperator _ _ _ _ _ before (fun _ => .parens sentence) read
            simpa [← same] using whole
        next => cases read
      | operator op =>
        obtain ⟨p', us', es', left, low, sentence, same⟩ :=
          opened.complete (q := op.precedence) (operand _)
        rw [readOperator] at read
        have whole := ihOperand _ _ _ (.operator left low sentence) read
        simpa [← same] using whole
      | opening => simp [readOperator] at read
      | name x => simp [readOperator] at read
      | number n => simp [readOperator] at read

theorem ofLexemes?_eq_some_iff : ofLexemes? ts = some e ↔ Sentence 0 ts e := by
  constructor
  · intro read
    exact (sentence_of_read ts).1 0 [] [] .start read
  · intro sentence
    have read : readOperand [] (ts ++ []) = readOperator [] e [] :=
      sentence.readOperand nofun nofun
    rw [List.append_nil] at read
    rw [ofLexemes?, read]
    rfl

/-- The grammar is unambiguous. -/
theorem Sentence.unique (h : Sentence p ts e) (h' : Sentence q ts f) : e = f := by
  have read := ofLexemes?_eq_some_iff.2 (h.weaken (Nat.zero_le p))
  have read' := ofLexemes?_eq_some_iff.2 (h'.weaken (Nat.zero_le q))
  exact Option.some.inj (read.symm.trans read')

end FlowAnalysis.Expr
