import LeastSquares.Tensor

/-!
# Nested literals

Numeric data is written as numbers in nested lists. The shape of a literal is read along its first
elements (`Literal.shape`), and every list must then have the length that the shape gives to its
axis (`Literal.entries`). An empty list ends the shape: `[]` has the shape `(0,)` and `[[], []]`
the shape `(2, 0)`. A shape without entries leaves nothing to read, so elements behind the first
ones are then not looked at.
-/

namespace LeastSquares

/-- A number or a list of literals. -/
inductive Literal (α : Type) where
  | number (x : α)
  | list (elements : List (Literal α))

namespace Literal

variable {α : Type}

/-- The shape found by descending into first elements. -/
def shape : Literal α → List Nat
  | number _ => []
  | list [] => [0]
  | list (first :: rest) => (rest.length + 1) :: first.shape

/-- The entries in row-major order, if the literal fills the shape. -/
def entries : List Nat → Literal α → Except Error (List α)
  | [], number x => .ok [x]
  | [], list _ => .error .notNumeric
  | _ :: _, number _ => .error .notNumeric
  | n :: ns, list elements =>
    if elements.length = n then do
      let parts ← elements.mapM (entries ns)
      .ok parts.flatten
    else .error .ragged

/-- The greatest number of axes of a tensor. -/
def maxAxes : Nat := 128

/-- The tensor that a literal denotes. -/
def toTensor (l : Literal α) : Except Error (Tensor α) :=
  if maxAxes < l.shape.length then .error .tooManyAxes
  else if volume l.shape = 0 then Tensor.ofData l.shape []
  else do
    let data ← l.entries l.shape
    Tensor.ofData l.shape data

/-- The entries of a literal with its axes forgotten. -/
def toList (l : Literal α) : Except Error (List α) := do
  let t ← l.toTensor
  .ok t.data

end Literal

end LeastSquares
