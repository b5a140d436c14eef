/-!
# The number behind a floating-point value

A finite floating-point value is a sign and a number `m · 2 ^ q` of naturals and an integer, read
off its bits (`Binary.ofFloat`). Decimal text is computed from these in exact arithmetic. The
decimals that read back as the value are those between the midpoints to its two neighbours
(`Binary.Magnitude.readsBack`); the midpoints themselves count when the value's last bit is even.
-/

namespace LeastSquares.Decimal

/-- The number `mantissa · 2 ^ exponent`. -/
structure Magnitude where
  /-- The significant bits. -/
  mantissa : Nat
  /-- The exponent of the last bit. -/
  exponent : Int
deriving DecidableEq, Repr

/-- What a floating-point value denotes. -/
inductive Binary where
  | nan
  | infinite (negative : Bool)
  | finite (negative : Bool) (magnitude : Magnitude)
deriving DecidableEq, Repr

/-- Reads the 64 bits of a value: a sign, eleven exponent bits and 52 bits of the mantissa, whose
leading bit is not stored except where the exponent bits are zero. -/
def Binary.ofFloat (x : Float) : Binary :=
  let bits := x.toBits.toNat
  let negative := bits / Nat.pow 2 63 == 1
  let exponent : Nat := bits / Nat.pow 2 52 % Nat.pow 2 11
  let fraction : Nat := bits % Nat.pow 2 52
  if exponent = 2047 then if fraction = 0 then infinite negative else nan
  else if exponent = 0 then finite negative ⟨fraction, -1074⟩
  else finite negative ⟨fraction + Nat.pow 2 52, Int.ofNat exponent - 1075⟩

/-- A fraction of naturals. -/
structure Fraction where
  /-- The numerator. -/
  num : Nat
  /-- The denominator. -/
  den : Nat
deriving DecidableEq, Repr

namespace Fraction

/-- A fraction times a power of `base`. -/
def shift (base : Nat) (f : Fraction) (k : Int) : Fraction :=
  ⟨f.num * base.pow k.toNat, f.den * base.pow (-k).toNat⟩

/-- Whether a fraction is at most another. -/
def le (f g : Fraction) : Bool := f.num * g.den ≤ g.num * f.den

/-- Whether a fraction is less than another. -/
def lt (f g : Fraction) : Bool := f.num * g.den < g.num * f.den

/-- The nearest natural number; halfway between two, the even one. -/
def round (f : Fraction) : Nat :=
  let quotient := f.num / f.den
  let rest := f.num % f.den
  if 2 * rest < f.den then quotient
  else if f.den < 2 * rest then quotient + 1
  else if quotient % 2 = 0 then quotient else quotient + 1

end Fraction

namespace Magnitude

/-- The number as a fraction. -/
def toFraction (m : Magnitude) : Fraction := Fraction.shift 2 ⟨m.mantissa, 1⟩ m.exponent

/-- The midpoint to the next greater value. -/
def upper (m : Magnitude) : Fraction := Fraction.shift 2 ⟨4 * m.mantissa + 2, 1⟩ (m.exponent - 2)

/-- The midpoint to the next smaller value, which is nearer where the exponent changes. -/
def lower (m : Magnitude) : Fraction :=
  let gap := if m.mantissa = Nat.pow 2 52 ∧ -1074 < m.exponent then 1 else 2
  Fraction.shift 2 ⟨4 * m.mantissa - gap, 1⟩ (m.exponent - 2)

/-- Whether a fraction, rounded to the nearest value, is this number. -/
def readsBack (m : Magnitude) (f : Fraction) : Bool :=
  if m.mantissa % 2 = 0 then m.lower.le f && f.le m.upper
  else m.lower.lt f && f.lt m.upper

/-- Whether a natural number is this number. -/
def isNat (m : Magnitude) (n : Nat) : Bool :=
  let f := m.toFraction
  f.num == n * f.den

end Magnitude

/-- Whether an integer is the number that a value denotes. -/
def Binary.isInt : Binary → Int → Bool
  | finite negative m, n => m.isNat n.natAbs && (n == 0 || negative == decide (n < 0))
  | _, _ => false

end LeastSquares.Decimal
