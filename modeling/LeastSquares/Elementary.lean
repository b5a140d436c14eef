import LeastSquares.Manifold

/-!
# Elementary functions

Residuals and stopping tests need a few functions beyond the field operations. They are one class,
so that a definition runs on floating-point numbers and is reasoned about on the real numbers. What
variables are points of, beside vectors, belongs to it too.
-/

namespace LeastSquares

/-- The functions that residuals and stopping tests call on, and the manifolds. -/
class Elementary (α : Type) extends Manifolds α where
  /-- The square root. -/
  sqrt : α → α
  /-- The exponential function. -/
  exp : α → α
  /-- The natural logarithm. -/
  log : α → α
  /-- The Euclidean length of a vector. -/
  norm : List α → α

/-- The length of a floating-point vector. A vector of one entry is not squared, so its length is
exact. -/
def floatNorm : List Float → Float
  | [x] => x.abs
  | xs => (xs.map fun x => x * x).sum.sqrt

instance : Elementary Float where
  sqrt := Float.sqrt
  exp := Float.exp
  log := Float.log
  norm := floatNorm
  named := Manifolds.positiveNumbers Float.exp Float.log

variable {α : Type}

/-- The absolute value. -/
def magnitude [Zero α] [Neg α] [LT α] [DecidableLT α] (x : α) : α := if x < 0 then -x else x

/-- Whether a number is finite: only then does it cancel against itself. -/
def isFinite [Zero α] [Sub α] [BEq α] (x : α) : Bool := x - x == 0

end LeastSquares
