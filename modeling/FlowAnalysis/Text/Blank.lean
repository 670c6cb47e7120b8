/-!
Blank characters are those with the White_Space property of Unicode.
-/
namespace FlowAnalysis.Text

/-- Membership in White_Space: the ASCII controls from tab to carriage return, the control U+0085
(next line), the line and paragraph separators, and all space separators. -/
def isBlank (c : Char) : Bool :=
  let n := c.toNat
  (0x09 ≤ n && n ≤ 0x0d) || n == 0x20 || n == 0x85 || n == 0xa0 || n == 0x1680 ||
    (0x2000 ≤ n && n ≤ 0x200a) || n == 0x2028 || n == 0x2029 || n == 0x202f || n == 0x205f ||
    n == 0x3000

/-- Nothing but blanks; the empty text is blank. -/
def blank (s : String) : Bool := s.toList.all isBlank

end FlowAnalysis.Text
