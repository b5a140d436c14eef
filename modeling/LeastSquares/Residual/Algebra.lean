import LeastSquares.Residual

/-!
# Residuals by tensor algebra

Residuals that read the coordinates of variables of any kind: the inner product of two variables,
a tensor without axes (`Residual.dot`), their outer product, a tensor with two axes
(`Residual.outer`), and an affine function of several variables (`Residual.affine`).

A matrix is applied to a variable by multiplying each row with the coordinates, entry by entry, and
adding up along the second axis (`Traced.apply`). So a row also applies to a variable of one
coordinate, which is stretched to the length of the row.
-/

namespace LeastSquares

variable {α : Type}

/-- A matrix applied to a vector, row by row. -/
def Traced.apply [Zero α] [Add α] [Mul α] (m : Tensor α) (x : Traced α) :
    Except Error (Traced α) := do
  let products ← (Traced.constant m).mul x
  products.sumRows

namespace Residual

variable [Zero α] [Add α] [Mul α]

/-- The inner product of two variables, less its target. -/
def dot [Sub α] (target : α) (first second : Int) : Residual α where
  trace s := do
    let x ← read s first
    let y ← read s second
    let products ← x.mul y
    .ok (products.sum.lower target)

/-- The products of each coordinate of one variable with each of another. -/
def outer (first second : Int) : Residual α where
  trace s := do
    let x ← read s first
    let y ← read s second
    x.column.mul y

/-- Adds the products of matrices with the variables under the keys beside them. -/
def addTerms (s : Assignment α) : List (Int × Tensor α) → Traced α → Except Error (Traced α)
  | [], sum => .ok sum
  | (key, m) :: rest, sum => do
    let x ← read s key
    let term ← x.apply m
    let sum ← sum.add term
    addTerms s rest sum

/-- A sum of matrix products of variables, less an offset. -/
def affine [Neg α] (offset : Tensor α) (terms : List (Int × Tensor α)) : Residual α where
  trace s := addTerms s terms (.constant (offset.map (-·)))

end Residual

end LeastSquares
