import FlowAnalysis.Proofs.Expr.Grammar
import FlowAnalysis.Proofs.Text.Number
import Mathlib.Tactic.ByContra
import Mathlib.Tactic.Tauto

/-!
Printed expressions read back. Main statement: the text of an expression over identifiers is a
sentence that shows this expression and no other, so different expressions have different texts.
-/
namespace FlowAnalysis

open Text (Token exists_repr_eq_cons exists_toString_eq isDigit_repr toInt?_toString
  toList_repr_ne_nil)

namespace Expr

variable {e f : Expr} {p : Nat} {rest : List Char}

theorem inWord_of_nameChar {c : Char} (h : Variable.nameChar c = true) : Token.inWord c = true := by
  by_contra parts
  have parted : c = ' ' ∨ c = '(' ∨ c = ')' ∨ c = '\n' := by
    simp only [Token.inWord, Bool.and_eq_true, bne_iff_ne] at parts
    tauto
  obtain rfl | rfl | rfl | rfl := parted
  all_goals exact absurd h (by decide)

theorem nameChar_of_isDigit {c : Char} (h : c.isDigit = true) : Variable.nameChar c = true := by
  simp [Variable.nameChar, Char.isAlphanum, h]

theorem inWord_toString (n : Int) : ∀ c ∈ (toString n).toList, Token.inWord c = true := by
  obtain ⟨m, ⟨plain, -⟩ | ⟨signed, -⟩⟩ := exists_toString_eq n
  · intro c hc
    rw [plain] at hc
    exact inWord_of_nameChar (nameChar_of_isDigit (isDigit_repr m c hc))
  · intro c hc
    rw [signed, String.toList_append] at hc
    obtain sign | digit := List.mem_append.1 hc
    · obtain rfl : c = '-' := by simpa using sign
      rfl
    · exact inWord_of_nameChar (nameChar_of_isDigit (isDigit_repr m c digit))

theorem isIdentifier_toString (n : Int) : Variable.isIdentifier (toString n) = false := by
  obtain ⟨m, ⟨plain, -⟩ | ⟨signed, -⟩⟩ := exists_toString_eq n
  · obtain ⟨c, cs, whole, digit⟩ := exists_repr_eq_cons m
    simp [Variable.isIdentifier, Variable.regular, plain, whole, digit]
  · have sign : Variable.nameChar '-' = false := by decide
    simp [Variable.isIdentifier, Variable.regular, signed, sign]

theorem inWord_symbol (op : BinaryOp) : ∀ c ∈ op.symbol.toList, Token.inWord c = true := by
  cases op <;> simp [BinaryOp.symbol, Token.inWord]

theorem isIdentifier_symbol (op : BinaryOp) : Variable.isIdentifier op.symbol = false := by
  cases op <;> rfl

theorem ofSymbol?_toString (n : Int) : BinaryOp.ofSymbol? (toString n) = none := by
  rw [Option.eq_none_iff_forall_ne_some]
  intro op found
  have noDigit : ∀ c ∈ op.symbol.toList, c.isDigit = false := by
    cases op <;> simp [BinaryOp.symbol, Char.isDigit]
  rw [BinaryOp.symbol_of_ofSymbol? found] at noDigit
  obtain ⟨m, written⟩ := exists_toString_eq n
  obtain ⟨c, cs, whole, digit⟩ := exists_repr_eq_cons m
  have mem : c ∈ (toString n).toList := by
    obtain ⟨plain, -⟩ | ⟨signed, -⟩ := written
    · simp [plain, whole]
    · simp [signed, whole]
  rw [noDigit c mem] at digit
  cases digit

namespace Lexeme

/-- A name is an identifier. -/
def Named (t : Lexeme) : Prop := ∀ x, t = .name x → Variable.isIdentifier x = true

theorem token_ne_newline (t : Lexeme) : t.token ≠ .newline := by
  cases t <;> exact nofun

theorem ofToken?_token {t : Lexeme} (named : t.Named) : ofToken? t.token = some t := by
  cases t with
  | opening => rfl
  | closing => rfl
  | name x => simp [token, ofToken?, named x rfl]
  | number n =>
    simp only [token, ofToken?, isIdentifier_toString, ofSymbol?_toString, toInt?_toString]
    rfl
  | operator op => simp [token, ofToken?, isIdentifier_symbol]

theorem mapM_ofToken? {ts : List Lexeme} (named : ∀ t ∈ ts, t.Named) :
    (ts.map token).mapM ofToken? = some ts := by
  induction ts with
  | nil => rfl
  | cons t ts ih =>
    obtain ⟨head, tail⟩ := List.forall_mem_cons.1 named
    simp [ofToken?_token head, ih tail]

end Lexeme

theorem named_lexemesAt (named : ∀ x ∈ e.reads, Variable.isIdentifier x = true) :
    ∀ t ∈ e.lexemesAt p, t.Named := by
  induction e generalizing p with
  | var x => simpa [lexemesAt, Lexeme.Named, reads] using named
  | const n => simp [lexemesAt, Lexeme.Named]
  | binary op l r ihLeft ihRight =>
    obtain ⟨left, right⟩ := List.forall_mem_append.1 named
    have opening : Lexeme.opening.Named := by simp [Lexeme.Named]
    have closing : Lexeme.closing.Named := by simp [Lexeme.Named]
    have operator : (Lexeme.operator op).Named := by simp [Lexeme.Named]
    have body : ∀ t ∈ l.lexemesAt op.precedence ++
        .operator op :: r.lexemesAt (op.precedence + 1), t.Named :=
      List.forall_mem_append.2 ⟨ihLeft left, List.forall_mem_cons.2 ⟨operator, ihRight right⟩⟩
    simp only [lexemesAt]
    split
    · exact List.forall_mem_cons.2 ⟨opening,
        List.forall_mem_append.2 ⟨body, List.forall_mem_singleton.2 closing⟩⟩
    · exact body

theorem sentence_lexemesAt (e : Expr) (p : Nat) : Sentence p (e.lexemesAt p) e := by
  induction e generalizing p with
  | var x => exact .name
  | const n => exact .number
  | binary op l r ihLeft ihRight =>
    simp only [lexemesAt]
    split
    next => exact .parens (.binary (Nat.zero_le _) (ihLeft _) (ihRight _))
    next high => exact .binary (Nat.le_of_not_lt high) (ihLeft _) (ihRight _)

theorem ofTokens?_lexemesAt (named : ∀ x ∈ e.reads, Variable.isIdentifier x = true) :
    ofTokens? ((e.lexemesAt 0).map Lexeme.token) = some e := by
  rw [ofTokens?, Lexeme.mapM_ofToken? (named_lexemesAt named)]
  exact ofLexemes?_eq_some_iff.2 (sentence_lexemesAt e 0)

theorem scan_name {x : Variable} (h : Variable.isIdentifier x = true) (parted : Token.Parted rest) :
    Token.scan (x.toList ++ rest) = .word x :: Token.scan rest := by
  simp only [Variable.isIdentifier, Variable.regular, Bool.and_eq_true, bne_iff_ne] at h
  obtain ⟨some, chars, -⟩ := h
  have word : ∀ c ∈ x.toList, Token.inWord c = true := fun c hc =>
    inWord_of_nameChar (List.all_eq_true.1 chars c hc)
  rw [Token.scan_word (mt String.toList_eq_nil_iff.1 some) word parted, String.ofList_toList]

theorem scan_number (n : Int) (parted : Token.Parted rest) :
    Token.scan ((toString n).toList ++ rest) = .word (toString n) :: Token.scan rest := by
  have some : (toString n).toList ≠ [] := by
    obtain ⟨m, ⟨plain, -⟩ | ⟨signed, -⟩⟩ := exists_toString_eq n
    · rw [plain]
      exact toList_repr_ne_nil m
    · simp [signed]
  rw [Token.scan_word some (inWord_toString n) parted, String.ofList_toList]

theorem scan_symbol (op : BinaryOp) (parted : Token.Parted rest) :
    Token.scan (op.symbol.toList ++ rest) = .word op.symbol :: Token.scan rest := by
  have some : op.symbol.toList ≠ [] := by cases op <;> decide
  rw [Token.scan_word some (inWord_symbol op) parted, String.ofList_toList]

/-- The text of an expression has the tokens of its lexemes. -/
theorem scan_textAt (named : ∀ x ∈ e.reads, Variable.isIdentifier x = true)
    (parted : Token.Parted rest) : Token.scan ((e.textAt p).toList ++ rest) =
      (e.lexemesAt p).map Lexeme.token ++ Token.scan rest := by
  induction e generalizing p rest with
  | var x => exact scan_name (named x List.mem_cons_self) parted
  | const n => exact scan_number n parted
  | binary op l r ihLeft ihRight =>
    obtain ⟨left, right⟩ := List.forall_mem_append.1 named
    have blank : ∀ {cs}, Token.Parted (' ' :: cs) := Token.parted_cons rfl
    -- the text between the parentheses, whether these are printed or not
    have body : ∀ {rest}, Token.Parted rest →
        Token.scan ((l.textAt op.precedence).toList ++ ' ' :: (op.symbol.toList ++
          ' ' :: ((r.textAt (op.precedence + 1)).toList ++ rest))) =
        (l.lexemesAt op.precedence).map Lexeme.token ++ .word op.symbol ::
          ((r.lexemesAt (op.precedence + 1)).map Lexeme.token ++ Token.scan rest) := by
      intro rest parted
      rw [ihLeft left blank, Token.scan_blank, scan_symbol op blank, Token.scan_blank,
        ihRight right parted]
    simp only [textAt, lexemesAt]
    split
    · have closed : Token.Parted (')' :: rest) := Token.parted_cons rfl
      simpa [Lexeme.token] using body closed
    · simpa [Lexeme.token] using body parted

/-- The text shows the expression: its tokens are a sentence of the grammar for it. -/
def Shows (s : String) (e : Expr) : Prop :=
  ∃ ts, (Token.scan s.toList).mapM Lexeme.ofToken? = some ts ∧ Sentence 0 ts e

theorem Shows.unique {s : String} (h : Shows s e) (h' : Shows s f) : e = f := by
  obtain ⟨ts, read, sentence⟩ := h
  obtain ⟨us, read', sentence'⟩ := h'
  obtain rfl : ts = us := Option.some.inj (read.symm.trans read')
  exact sentence.unique sentence'

theorem ofText?_eq_some_iff {s : String} : ofText? s = some e ↔ Shows s e := by
  simp [ofText?, ofTokens?, Shows, Option.bind_eq_some_iff, ofLexemes?_eq_some_iff]

theorem shows_text (named : ∀ x ∈ e.reads, Variable.isIdentifier x = true) :
    Shows e.text e := by
  have tokens := scan_textAt (p := 0) named Token.parted_nil
  rw [List.append_nil, Token.scan_nil, List.append_nil] at tokens
  refine ⟨e.lexemesAt 0, ?_, sentence_lexemesAt e 0⟩
  rw [text, tokens]
  exact Lexeme.mapM_ofToken? (named_lexemesAt named)

/-- The text of an expression over identifiers reads back as it. -/
theorem text_unambiguous (named : ∀ x ∈ e.reads, Variable.isIdentifier x = true) :
    ofText? e.text = some e ∧ (∀ f, Shows e.text f ↔ f = e) ∧
      ∀ f, (∀ x ∈ f.reads, Variable.isIdentifier x = true) → e.text = f.text → e = f := by
  have shown := shows_text named
  refine ⟨ofText?_eq_some_iff.2 shown, fun f => ⟨fun h => h.unique shown, ?_⟩, ?_⟩
  · rintro rfl
    exact shown
  · intro f named' same
    exact shown.unique (same ▸ shows_text named')

/-- The parentheses tell `a - (b - -5)` from `a - b - -5`. -/
theorem text_unambiguous_differences :
    let right := Expr.binary .sub (.var "a") (.binary .sub (.var "b") (.const (-5)))
    let left := Expr.binary .sub (.binary .sub (.var "a") (.var "b")) (.const (-5))
    (∀ x ∈ right.reads, Variable.isIdentifier x = true) ∧
      (∀ x ∈ left.reads, Variable.isIdentifier x = true) ∧
      ofText? "a - (b - -5)" = some right ∧ right.text ≠ left.text := by
  intro right left
  have named : ∀ x ∈ right.reads, Variable.isIdentifier x = true := by decide
  have named' : ∀ x ∈ left.reads, Variable.isIdentifier x = true := by decide
  obtain ⟨back, -, apart⟩ := text_unambiguous named
  exact ⟨named, named', back, fun same => absurd (apart left named' same) (by decide)⟩

end Expr
end FlowAnalysis
