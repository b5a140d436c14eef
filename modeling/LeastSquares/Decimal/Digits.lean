import LeastSquares.Decimal.Binary

/-!
# Decimal digits of a number

Two ways of choosing the decimal digits of a positive number: a fixed count of them, rounded to the
nearest with ties to even (`Digits.ofCount`), and the fewest that read back as the number, of those
the nearest (`Digits.shortest`).

The decimals of `n` digits form a grid around the number. If any point of the grid reads back, so
does one of the two points next to the number, so only these are tried.
-/

namespace LeastSquares.Decimal

/-- The decimal `digits · 10 ^ (exponent - count + 1)` of `count` digits: the first digit has the
weight `10 ^ exponent`. -/
structure Digits where
  /-- The digits, read as a number. -/
  digits : Nat
  /-- How many digits there are. -/
  count : Nat
  /-- The power of ten of the first digit. -/
  exponent : Int
deriving DecidableEq, Repr

/-- The number of decimal digits. -/
def digitCount (n : Nat) : Nat := (Nat.toDigits 10 n).length

/-- The greatest power of ten that is at most a positive fraction. -/
def tenExponent (f : Fraction) : Int :=
  let guess := (digitCount f.num : Int) - digitCount f.den
  if (Fraction.shift 10 ⟨1, 1⟩ guess).le f then guess else guess - 1

namespace Digits

/-- The number that the digits denote. -/
def toFraction (d : Digits) : Fraction :=
  Fraction.shift 10 ⟨d.digits, 1⟩ (d.exponent - d.count + 1)

/-- A multiple of the last digit's weight as digits; ten to the count is one followed by zeros. -/
def ofMultiple (multiple count : Nat) (exponent : Int) : Digits :=
  if multiple = Nat.pow 10 count then ⟨Nat.pow 10 (count - 1), count, exponent + 1⟩
  else ⟨multiple, count, exponent⟩

/-- The nearest decimal of `count` digits. -/
def ofCount (count : Nat) (m : Magnitude) : Digits :=
  if m.mantissa = 0 then ⟨0, count, 0⟩
  else
    let f := m.toFraction
    let exponent := tenExponent f
    ofMultiple (f.shift 10 (count - 1 - exponent)).round count exponent

/-- The nearest decimal of `count` digits that reads back, of the two next to the number. -/
def readingBack? (m : Magnitude) (count : Nat) : Option Digits :=
  let f := m.toFraction
  let exponent := tenExponent f
  let scaled := f.shift 10 (count - 1 - exponent)
  let below := scaled.num / scaled.den
  let near := scaled.round
  let far := if near = below then below + 1 else below
  ([near, far].map fun n => ofMultiple n count exponent).find? fun d => m.readsBack d.toFraction

/-- The digits without zeros at the end; at least one digit stays. -/
def trim : Nat → Digits → Digits
  | 0, d => d
  | fuel + 1, d =>
    if d.digits % 10 = 0 ∧ 1 < d.count then trim fuel ⟨d.digits / 10, d.count - 1, d.exponent⟩
    else d

/-- The fewest digits that read back; seventeen always do. -/
def shortest (m : Magnitude) : Digits :=
  if m.mantissa = 0 then ⟨0, 1, 0⟩
  else
    let found := ((List.range 17).map (· + 1)).findSome? (readingBack? m)
    let d := found.getD (ofCount 17 m)
    trim d.count d

end Digits

end LeastSquares.Decimal
