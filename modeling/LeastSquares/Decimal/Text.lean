import LeastSquares.Decimal.Digits

/-!
# Decimal text of floating-point values

Three notations. `scientific` writes a fixed count of digits with an exponent of at least two
digits, and `fixed` a fixed count of digits behind the point. `shortest` writes the fewest digits
that read back: positional from `10 ^ -4` up to `10 ^ 16` and with a digit behind the point,
scientific outside.
-/

namespace LeastSquares.Decimal

/-- The exponent of a number in scientific notation: a sign and at least two digits. -/
def exponentText (e : Int) : String :=
  let digits := toString e.natAbs
  let sign := if e < 0 then "-" else "+"
  "e" ++ sign ++ (if digits.length < 2 then "0" ++ digits else digits)

/-- The digits as characters. -/
def Digits.characters (d : Digits) : List Char :=
  let written := Nat.toDigits 10 d.digits
  List.replicate (d.count - written.length) '0' ++ written

/-- One digit, a point and the others, and the exponent; no point behind a single digit. -/
def Digits.scientific (d : Digits) : String :=
  match d.characters with
  | [] => ""
  | [c] => String.ofList [c] ++ exponentText d.exponent
  | c :: rest => String.ofList (c :: '.' :: rest) ++ exponentText d.exponent

/-- The digits around a point, with zeros where they do not reach it. -/
def Digits.positional (d : Digits) : String :=
  let cs := d.characters
  if d.exponent < 0 then
    String.ofList ('0' :: '.' :: (List.replicate (-d.exponent - 1).toNat '0' ++ cs))
  else
    let whole := d.exponent.toNat + 1
    let padded := cs ++ List.replicate (whole - cs.length) '0'
    let behind := padded.drop whole
    String.ofList (padded.take whole ++ '.' :: (if behind.isEmpty then ['0'] else behind))

/-- The text of a value, given the text of its magnitude. -/
def Binary.text (magnitude : Magnitude → String) : Binary → String
  | nan => "nan"
  | infinite negative => if negative then "-inf" else "inf"
  | finite negative m => (if negative then "-" else "") ++ magnitude m

/-- A value in scientific notation with the given count of digits behind the point. -/
def scientific (places : Nat) (x : Float) : String :=
  (Binary.ofFloat x).text fun m => (Digits.ofCount (places + 1) m).scientific

/-- A value in the fewest digits that read back. -/
def shortest (x : Float) : String :=
  (Binary.ofFloat x).text fun m =>
    let d := Digits.shortest m
    if -4 ≤ d.exponent ∧ d.exponent < 16 then d.positional else d.scientific

/-- A magnitude with the given count of digits behind the point, rounded to the nearest with ties
to even. No point stands behind a whole number. -/
def Magnitude.fixed (places : Nat) (m : Magnitude) : String :=
  let written := Nat.toDigits 10 (m.toFraction.shift 10 places).round
  let padded := List.replicate (places + 1 - written.length) '0' ++ written
  let whole := padded.length - places
  let behind := if places = 0 then [] else '.' :: padded.drop whole
  String.ofList (padded.take whole ++ behind)

/-- A value with the given count of digits behind the point. -/
def fixed (places : Nat) (x : Float) : String :=
  (Binary.ofFloat x).text (Magnitude.fixed places)

/-- A text with blanks in front up to the given width. -/
def padLeft (width : Nat) (s : String) : String :=
  String.ofList (List.replicate (width - s.length) ' ') ++ s

end LeastSquares.Decimal
