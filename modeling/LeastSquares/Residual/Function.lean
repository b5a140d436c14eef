import LeastSquares.Residual

/-!
# Residuals of points on the line and in the plane

Nonlinear residuals of low-dimensional variables: an elementary function of a number
(`Residual.unary`), the distance of two points of the plane (`Residual.distance`), the products of
a point's coordinates (`Residual.products`), and the two residuals whose squares add up to a curved
valley with its floor at `y = x²` (`Residual.valley`).
-/

namespace LeastSquares

variable {α : Type}

/-- A function of one number. -/
inductive Unary where
  | square
  | log
  | sqrt
  | exp
deriving DecidableEq, Repr

namespace Unary

/-- The function at a number. -/
def eval [Mul α] [Elementary α] : Unary → α → α
  | square, x => x * x
  | log, x => Elementary.log x
  | sqrt, x => Elementary.sqrt x
  | exp, x => Elementary.exp x

/-- The sensitivity to a number that follows from a sensitivity to the function there. -/
def pull [Add α] [Mul α] [Div α] [Elementary α] : Unary → α → α → α
  | square, g, x => g * (x + x)
  | log, g, x => g / x
  | sqrt, g, x => g / (Elementary.sqrt x + Elementary.sqrt x)
  | exp, g, x => g * Elementary.exp x

end Unary

namespace Residual

variable [Zero α] [Add α] [Sub α] [Neg α] [Mul α] [Div α] [BEq α] [Elementary α]

/-- A function of a number on the line, less its target. -/
def unary (f : Unary) (target : α) (key : Int) : Residual α where
  trace s := do
    let x ← readKind s key .line
    .ok ((x.map f.eval f.pull).lower target)

/-- The distance of two points of the plane, less the measured one. -/
def distance (measured : α) (first second : Int) : Residual α where
  trace s := do
    let x ← readKind s first .plane
    let y ← readKind s second .plane
    let d ← x.sub y
    .ok (.stack [d.norm.lower measured])

/-- The product of the two coordinates of a point, and the square of the first. -/
def products (key : Int) : Residual α where
  trace s := do
    let x ← readKind s key .plane
    let a ← x.entry 0
    let b ← x.entry 1
    let product ← a.mul b
    .ok (.stack [product, a.square])

/-- How far a point is from the floor of a valley, times its steepness, and from the abscissa 1. -/
def valley [One α] (steepness : α) (key : Int) : Residual α where
  trace s := do
    let x ← readKind s key .plane
    let a ← x.entry 0
    let b ← x.entry 1
    let height ← b.sub a.square
    .ok (.stack [height.scale steepness, a.complement 1])

end Residual

end LeastSquares
