import LeastSquares.Assignment
import LeastSquares.Traced

/-!
# Residuals

A residual is a tensor computed from an assignment and traced back to the coordinates of its
variables. One function serves both uses: the cost of a factor reads the value (`Residual.value`),
and a linear model reads the value and its adjoint.

The residuals of the library are computed with the operations of traced tensors, so their
derivatives are never written down apart from them. A variable is read by `Residual.read` or, where
it must be of one kind, by `Residual.readKind`.
-/

namespace LeastSquares

/-- A tensor-valued function of the variables, traced back to their coordinates. -/
structure Residual (α : Type) where
  /-- The residual of an assignment. -/
  trace : Assignment α → Except Error (Traced α)

namespace Residual

variable {α : Type}

/-- The value of the residual at an assignment. -/
def value (r : Residual α) (s : Assignment α) : Except Error (Tensor α) := do
  let t ← r.trace s
  .ok t.value

/-- The coordinates of the variable under a key. -/
def read (s : Assignment α) (key : Int) : Except Error (Traced α) := do
  let x ← s.find key
  .ok (.coordinates key x)

/-- The coordinates of the variable under a key, which must be of the given kind. -/
def readKind (s : Assignment α) (key : Int) (kind : Kind) : Except Error (Traced α) := do
  let x ← s.get key kind
  .ok (.coordinates key x)

/-- A tensor that does not depend on the variables. -/
def constant (t : Tensor α) : Residual α := ⟨fun _ => .ok (.constant t)⟩

end Residual

end LeastSquares
