import FlowAnalysis.Text.Plain

/-!
Quoted text: double quotes around, a backslash before a quote or a backslash, short escapes for
the common controls, and the code point in hexadecimal for all other characters that are not plain.
-/
namespace FlowAnalysis.Text

/-- The code point of `c` in lower-case hexadecimal digits, braced. -/
def codePoint (c : Char) : String :=
  "\\u\x7b" ++ String.ofList (Nat.toDigits 16 c.toNat) ++ "\x7d"

/-- How `c` is written between double quotes. A single quote stands for itself. -/
def escape (c : Char) : String :=
  match c with
  | '\x00' => "\\0"
  | '\t' => "\\t"
  | '\r' => "\\r"
  | '\n' => "\\n"
  | '\\' => "\\\\"
  | '"' => "\\\""
  | c => if isPlain c then c.toString else codePoint c

/-- The text between double quotes, character by character. -/
def quoted (s : String) : String := "\"" ++ String.join (s.toList.map escape) ++ "\""

end FlowAnalysis.Text
