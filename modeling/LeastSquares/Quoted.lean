import LeastSquares.Quoted.Unprintable

/-!
# Quoted text

A text is shown between quotation marks: single ones, or double ones where it holds a single mark
and no double one. The mark, a backslash and every character that does not print are written by an
escape (`escape`), so a quoted text stays on one line.
-/

namespace LeastSquares.Quoted

/-- A number in hexadecimal digits, at least `width` of them. -/
def hex (width n : Nat) : String :=
  let digits := Nat.toDigits 16 n
  String.ofList (List.replicate (width - digits.length) '0' ++ digits)

/-- A character between quotation marks. -/
def escape (mark c : Char) : String :=
  if c = mark ∨ c = '\\' then String.ofList ['\\', c]
  else if c = '\n' then "\\n"
  else if c = '\r' then "\\r"
  else if c = '\t' then "\\t"
  else if prints c then String.singleton c
  else if c.toNat < 0x100 then "\\x" ++ hex 2 c.toNat
  else if c.toNat < 0x10000 then "\\u" ++ hex 4 c.toNat
  else "\\U" ++ hex 8 c.toNat

/-- A text between quotation marks. -/
def text (s : String) : String :=
  let mark := if s.toList.contains '\'' && !s.toList.contains '"' then '"' else '\''
  String.singleton mark ++ String.join (s.toList.map (escape mark)) ++ String.singleton mark

end LeastSquares.Quoted
