import LeastSquares.Assignment
import LeastSquares.BlockMatrix

/-!
# Factors

A factor constrains the variables under its keys. At an assignment it has a cost, and a linear model
of its residual: the Jacobian in joint tangent coordinates and the negated residual
(`LinearModel`). Factors hold no variables, so one factor serves any assignment.
-/

namespace LeastSquares

/-- A linear system `A d ≈ b` over the joint tangent space of an assignment. -/
structure LinearModel (α : Type) where
  /-- The Jacobian of the residual. -/
  matrix : BlockMatrix α
  /-- The negated residual. -/
  bias : BlockVector α

/-- A cost on the variables under some keys. -/
structure Factor (α : Type) where
  /-- The name it is shown by. -/
  name : String
  /-- The keys in the order the factor uses them. -/
  keys : List Int
  /-- Its cost at an assignment. -/
  cost : Assignment α → Except Error α
  /-- The linear model of its residual at an assignment. -/
  linearize : Assignment α → Except Error (LinearModel α)

/-- Refuses an empty list of keys, in the name of the factor's owner. -/
def checkKeys (owner : String) (keys : List Int) : Except Error Unit :=
  if keys.isEmpty then .error (.noKeys owner) else .ok ()

/-- A given name, or the default one for no name and for the empty name. -/
def nameOr (default : String) : Option String → String
  | some name => if name.isEmpty then default else name
  | none => default

/-- A factor whose cost and linear model are fixed. -/
def Factor.fixed {α : Type} (name : String) (keys : List Int) (cost : α)
    (model : LinearModel α) : Factor α where
  name := name
  keys := keys
  cost _ := .ok cost
  linearize _ := .ok model

end LeastSquares
