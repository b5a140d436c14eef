import LeastSquares.Residual

/-!
# Measurements of variables

The two linear measurements of a graph: of one variable against a target (`Residual.prior`), and of
the displacement between two variables of one kind (`Residual.between`). Both are weighted.

A measured difference combines with the displacement like two vectors of which one may be stretched,
so a difference of one entry applies to every coordinate.
-/

namespace LeastSquares

variable {α : Type}

/-- The displacement between two points of a kind, given by their coordinates. -/
def Traced.displacement [Zero α] [Add α] [Sub α] [Neg α] [Elementary α] (kind : Kind)
    (x y : Traced α) : Except Error (Traced α) :=
  match kind with
  | .vector _ _ => y.sub x
  | .manifold name n => do
    let d ← (Manifolds.named name n).displacement x.value y.value
    .ok ⟨d.tangent, fun g => x.adjoint (d.adjoint g).1 ++ y.adjoint (d.adjoint g).2⟩

namespace Residual

/-- A measurement against a target that no variable can be compared with. It only finds out which
kind of variable is stored. -/
def incomparable (target : String) (key : Int) : Residual α where
  trace s := do
    let x ← s.find key
    .error (.wrongKind key x.kind.name target)

variable [Zero α] [Add α] [Sub α] [Neg α] [Mul α] [Elementary α]

/-- The weighted displacement from a target to the variable under a key. -/
def prior (target : Variable α) (weight : α) (key : Int) : Residual α where
  trace s := do
    let x ← readKind s key target.kind
    let d ← Traced.displacement target.kind (.constant (.ofList target.coordinates)) x
    .ok (d.scale weight)

/-- The weighted difference between the displacement of two variables and its measurement. -/
def between (difference : List α) (weight : α) (first second : Int) : Residual α where
  trace s := do
    let x ← s.find first
    let y ← readKind s second x.kind
    let d ← Traced.displacement x.kind (.coordinates first x) y
    let r ← d.sub (.constant (.ofList difference))
    .ok (r.scale weight)

end Residual

end LeastSquares
