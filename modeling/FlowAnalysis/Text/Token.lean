/-!
The tokens of a text: parentheses, line ends, and the words that these and blanks part.
-/
namespace FlowAnalysis.Text

inductive Token
  | opening | closing | newline
  | word (s : String)
  deriving DecidableEq

namespace Token

/-- A character that a word can hold. -/
def inWord (c : Char) : Bool := c != ' ' && c != '(' && c != ')' && c != '\n'

/-- The word that was gathered, if any character was. -/
def gathered : List Char → List Token
  | [] => []
  | w => [.word (String.ofList w)]

/-- The tokens of the characters that follow those gathered in `w`. -/
def scanFrom (w : List Char) : List Char → List Token
  | [] => gathered w
  | c :: cs =>
    if c = ' ' then gathered w ++ scanFrom [] cs
    else if c = '(' then gathered w ++ .opening :: scanFrom [] cs
    else if c = ')' then gathered w ++ .closing :: scanFrom [] cs
    else if c = '\n' then gathered w ++ .newline :: scanFrom [] cs
    else scanFrom (w ++ [c]) cs

def scan (cs : List Char) : List Token := scanFrom [] cs

variable {w cs : List Char} {c : Char}

@[simp] theorem scan_nil : scan [] = [] := rfl

@[simp] theorem scan_blank : scan (' ' :: cs) = scan cs := rfl

@[simp] theorem scan_opening : scan ('(' :: cs) = .opening :: scan cs := rfl

@[simp] theorem scan_closing : scan (')' :: cs) = .closing :: scan cs := rfl

@[simp] theorem scan_newline : scan ('\n' :: cs) = .newline :: scan cs := rfl

theorem scanFrom_inWord (h : inWord c = true) : scanFrom w (c :: cs) = scanFrom (w ++ [c]) cs := by
  simp only [inWord, Bool.and_eq_true, bne_iff_ne] at h
  simp [scanFrom, h]

/-- What parts words ends the one that is gathered. -/
theorem scanFrom_of_not_inWord (h : inWord c = false) :
    scanFrom w (c :: cs) = gathered w ++ scan (c :: cs) := by
  simp only [scan, scanFrom, gathered, List.nil_append]
  split
  · rfl
  split
  · rfl
  split
  · rfl
  split
  · rfl
  next blank opening closing newline => simp [inWord, blank, opening, closing, newline] at h

/-- Leading blanks leave no trace. -/
theorem scan_replicate_blank (n : Nat) : scan (List.replicate n ' ' ++ cs) = scan cs := by
  induction n with
  | zero => rfl
  | succ n ih => rw [List.replicate_succ, List.cons_append, scan_blank, ih]

theorem scanFrom_append (word : ∀ c ∈ cs, inWord c = true) (rest : List Char) :
    scanFrom w (cs ++ rest) = scanFrom (w ++ cs) rest := by
  induction cs generalizing w with
  | nil => simp
  | cons c cs ih =>
    obtain ⟨head, tail⟩ := List.forall_mem_cons.1 word
    rw [List.cons_append, scanFrom_inWord head, ih tail, List.append_assoc, List.singleton_append]

/-- Nothing is left, or what is left begins with a character that parts words. -/
def Parted (rest : List Char) : Prop := ∀ c ∈ rest.head?, inWord c = false

theorem parted_nil : Parted [] := nofun

theorem parted_cons (h : inWord c = false) : Parted (c :: cs) := by
  intro d hd
  obtain rfl : c = d := by simpa using hd
  exact h

/-- A word is a token where it is parted from the rest. -/
theorem scan_word (some : w ≠ []) (word : ∀ c ∈ w, inWord c = true) {rest : List Char}
    (parted : Parted rest) : scan (w ++ rest) = .word (String.ofList w) :: scan rest := by
  have whole : gathered w = [.word (String.ofList w)] := by
    cases w with
    | nil => exact absurd rfl some
    | cons c w => rfl
  rw [scan, scanFrom_append word, List.nil_append]
  cases rest with
  | nil => exact whole
  | cons c rest => rw [scanFrom_of_not_inWord (parted c rfl), whole, List.singleton_append]

end Token
end FlowAnalysis.Text
