import LeastSquares.Tensor

/-!
# Products of tensors

The last axis of one tensor is summed against the last axis but one of another
(`Tensor.product`); a vector on the left is a row, a vector on the right a column. The axes in front
stack the factors, and stacks are stretched like the entries of a combination.
-/

namespace LeastSquares

variable {α : Type}

/-- The sums of `n` stacked vectors of length `m`, for each of `l` stacks. -/
def stackSums [Zero α] [Add α] (l n m : Nat) (xs : List α) : List α :=
  (rowsOf l (n * m) xs).flatMap fun stack =>
    (rowsOf n m stack).foldl Dense.add (List.replicate m 0)

namespace Tensor

/-- The axes of a left factor: those of the stack, those that stay, and the one that is summed. -/
def leftAxes (shape : List Nat) : Except Error (List Nat × List Nat × Nat) :=
  match shape.reverse with
  | k :: n :: stack => .ok (stack.reverse, [n], k)
  | [k] => .ok ([], [], k)
  | [] => .error .lengthMismatch

/-- The axes of a right factor: those of the stack, the one that is summed, and those that stay. -/
def rightAxes (shape : List Nat) : Except Error (List Nat × Nat × List Nat) :=
  match shape.reverse with
  | m :: k :: stack => .ok (stack.reverse, k, [m])
  | [k] => .ok ([], k, [])
  | [] => .error .lengthMismatch

/-- The product of two tensors with at least one axis each. -/
def product [Zero α] [Add α] [Mul α] (s t : Tensor α) : Except Error (Tensor α) := do
  let (leftStack, rows, k) ← leftAxes s.shape
  let (rightStack, k', columns) ← rightAxes t.shape
  if k ≠ k' then .error .lengthMismatch
  else do
    let s ← ofData (leftStack ++ [volume rows, k, 1]) s.data
    let t ← ofData (rightStack ++ [1, k, volume columns]) t.data
    let products ← s.combine (· * ·) t
    let stack := products.shape.take (products.shape.length - 3)
    ofData (stack ++ rows ++ columns)
      (stackSums (volume stack * volume rows) k (volume columns) products.data)

end Tensor

end LeastSquares
