import LeastSquares.Tensor

/-!
# Manifolds

A variable need not be a point of a vector space. Of the manifold that it is a point of a program
knows the dimension of the tangent space and two operations: the motion of a point along a tangent
vector and the tangent vector that leads from one point to another (`Manifold`). Points are given by
their coordinates, of which there may be more than dimensions.

The operations may refuse, and no law relates them. What a statement relies on, say that motion
along zero has no effect, is a hypothesis of that statement. Both operations come with the way back
of sensitivities, from which linear models are built.

Which manifolds there are is a parameter of the library (`Manifolds`). A program that knows of the
positive numbers is obtained by `Manifolds.positiveNumbers`.
-/

namespace LeastSquares

variable {α : Type}

/-- A point that was moved along a tangent vector. -/
structure Motion (α : Type) (dimension : Nat) where
  /-- The coordinates of the point it has become. -/
  coordinates : List α
  /-- The sensitivity to the tangent vector that follows from a sensitivity to these coordinates. -/
  adjoint : List α → List α
  length_adjoint : ∀ g, (adjoint g).length = dimension

/-- A tangent vector that leads from one point to another. -/
structure Displacement (α : Type) where
  /-- The tangent vector. -/
  tangent : Tensor α
  /-- The sensitivities to the coordinates of the two points that follow from a sensitivity to the
  tangent vector. -/
  adjoint : List α → List α × List α

/-- How the points of a manifold move along tangent vectors, and how they are compared. -/
structure Manifold (α : Type) (dimension : Nat) where
  /-- The point of the given coordinates moved along a tangent vector. -/
  move : List α → Tensor α → Except Error (Motion α dimension)
  /-- The displacement from one point to another. -/
  displacement : Tensor α → Tensor α → Except Error (Displacement α)

/-- The manifolds that variables may be points of, by their names and dimensions. Kept as a class,
they need not be an argument of everything that is computed from variables. -/
class Manifolds (α : Type) where
  /-- The manifold of a name and a dimension. -/
  named (name : String) (dimension : Nat) : Manifold α dimension

namespace Manifold

/-- A manifold of which nothing is known. -/
def unknown (dimension : Nat) : Manifold α dimension where
  move _ _ := .error .notSupported
  displacement _ _ := .error .notSupported

variable [Zero α] [Add α] [Neg α] [Mul α] [Div α] (exp log : α → α)

/-- The positive numbers. They move by a factor whose logarithm is the tangent vector. -/
def positive : Manifold α 1 where
  move x tangent := do
    let moved ← (Tensor.ofList x).combine (fun a d => a * exp d) tangent
    .ok
      { coordinates := moved.data
        adjoint := fun g =>
          let factor := (gather [1] [x.length] (List.zipWith (· * ·) g x)).headD 0
          [factor * exp (tangent.data.headD 0)]
        length_adjoint := fun _ => rfl }
  displacement x y := do
    let ratio ← y.combine (· / ·) x
    let operands := (y.spread ratio.shape).zip (x.spread ratio.shape)
    .ok
      { tangent := ratio.map log
        adjoint := fun g =>
          let g := List.zipWith (· / ·) g ratio.data
          let toLast := List.zipWith (fun g p => g / p.2) g operands
          let toFirst := List.zipWith (fun g p => -g * (p.1 / p.2 / p.2)) g operands
          (gather x.shape ratio.shape toFirst, gather y.shape ratio.shape toLast) }

end Manifold

/-- The positive numbers are the only manifold. -/
def Manifolds.positiveNumbers [Zero α] [Add α] [Neg α] [Mul α] [Div α] (exp log : α → α)
    (name : String) : (dimension : Nat) → Manifold α dimension
  | 1 => if name = "Positive" then .positive exp log else .unknown 1
  | n => .unknown n

end LeastSquares
