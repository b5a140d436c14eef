import LeastSquares.BlockMatrix.Product

/-!
# Linear least squares by conjugate gradients

Finds an `x` for which `‖b - A x‖` is least, by conjugate gradients on the normal equations
`Aᵀ A x = Aᵀ b`. Only the forward product with `A` and the adjoint product are used; the matrix of
the normal equations is never formed.

An iterate holds the unknown `x`, the residual `r = b - A x`, the normal residual `s = Aᵀ r` with
its squared length, and the next search direction `p`. One step (`LinearSystem.advance`) searches
along `p` and turns the direction; the residual is carried along by recurrence. A run takes at most
as many steps as its budget allows, and its outcome says why it ended (`Ending`) and lists the
steps it took. A solver may run several times. It counts the steps of a run while these are taken,
and remembers whether the run converged (`LinearSolver.search`).

Rows and columns that no tile of the matrix touches are zero, so products are padded to the lengths
of `b` and `x`.
-/

namespace LeastSquares

variable {α : Type}

/-- A matrix with the lengths of the right-hand side and of the unknown. -/
structure LinearSystem (α : Type) where
  /-- The matrix. -/
  matrix : BlockMatrix α
  /-- The length of the right-hand side. -/
  rows : Nat
  /-- The length of the unknown. -/
  columns : Nat

/-- The state of a run between two steps. -/
structure Iterate (α : Type) where
  /-- The unknown. -/
  x : List α
  /-- The residual `b - A x`. -/
  r : List α
  /-- The normal residual `Aᵀ r`. -/
  s : List α
  /-- The direction of the next search. -/
  p : List α
  /-- The squared length of the normal residual. -/
  gamma : α
  /-- The number of steps taken. -/
  steps : Nat

/-- A step of a run. -/
structure SearchStep (α : Type) where
  /-- The state behind the step. -/
  iterate : Iterate α
  /-- How far the step went along its direction. -/
  alpha : α
  /-- The squared length that is compared with the precision: of the new direction, taken as far
  as the step went. -/
  movement : α

/-- Why a run ended. -/
inductive Ending where
  /-- The normal residual is zero at the start. -/
  | stationary
  /-- The matrix takes the search direction to zero. -/
  | nullDirection
  /-- The movement fell below the precision. -/
  | smallMovement
  /-- The normal residual became zero. -/
  | vanished
  /-- The budget was used up. -/
  | exhausted
deriving DecidableEq, Repr

/-- A run that ended. -/
structure Solution (α : Type) where
  /-- The last state. -/
  last : Iterate α
  /-- Why the run ended. -/
  ending : Ending
  /-- The steps in order. -/
  trace : List (SearchStep α)

/-- Every ending but an exhausted budget counts as convergence. -/
def Ending.converged : Ending → Bool
  | exhausted => false
  | _ => true

/-- Precision and budget of a run, and whether it reports its progress. -/
structure LinearSettings (α : Type) where
  /-- The movement below which a run ends. -/
  precision : α
  /-- The number of steps a run may take; none if it is negative. -/
  maxIterations : Int
  /-- Whether progress is reported. -/
  verbose : Bool

/-- The settings used where none are given. -/
def LinearSettings.standard [OfScientific α] : LinearSettings α := ⟨1e-10, 400, false⟩

namespace LinearSystem

/-- The product with the matrix, as long as the right-hand side. -/
def forward [Zero α] [Add α] [Mul α] (A : LinearSystem α) (x : Operand α) :
    Except Error (List α) := do
  let product ← A.matrix.apply x
  Dense.pad A.rows product

/-- The product with the transposed matrix, as long as the unknown. -/
def adjoint [Zero α] [Add α] [Mul α] (A : LinearSystem α) (y : Operand α) :
    Except Error (List α) := do
  let product ← A.matrix.adjoint y
  Dense.pad A.columns product

section
variable [Zero α] [Add α] [Sub α] [Mul α]

/-- The state at a starting point, for a right-hand side. -/
def start (A : LinearSystem α) (bias x : Tensor α) : Except Error (Iterate α) := do
  let product ← A.forward (.dense x)
  let r ← bias.combine (· - ·) (.ofList product)
  let s ← A.adjoint (.dense r)
  .ok ⟨x.data, r.data, s, s, Dense.normSq s, 0⟩

variable [Div α]

/-- One step: a search along the direction `p`, whose product with the matrix is `q`, and a new
direction. -/
def advance (A : LinearSystem α) (it : Iterate α) (q : List α) :
    Except Error (SearchStep α) := do
  let alpha := it.gamma / Dense.normSq q
  let x := Dense.add it.x (Dense.smul alpha it.p)
  let r := Dense.sub it.r (Dense.smul alpha q)
  let s ← A.adjoint (.dense (.ofList r))
  let gamma := Dense.normSq s
  let p := Dense.add s (Dense.smul (gamma / it.gamma) it.p)
  .ok ⟨⟨x, r, s, p, gamma, it.steps + 1⟩, alpha, Dense.normSq (Dense.smul alpha p)⟩

end

end LinearSystem

/-- The right-hand side as a tensor; a block vector is materialized to reach all rows. -/
def Operand.rightHandSide [Zero α] [Add α] (rows : Int) : Operand α → Except Error (Tensor α)
  | dense b => .ok b
  | sparse b => do
    let b ← b.dense (max rows b.dimension)
    .ok (.ofList b)

/-- The length of the first axis. -/
def Tensor.leading (t : Tensor α) : Except Error Nat :=
  match t.shape with
  | n :: _ => .ok n
  | [] => .error .noAxis

/-- The system of a right-hand side and a starting point, and the state there. -/
def LinearSystem.pose [Zero α] [Add α] [Sub α] [Mul α] (A : BlockMatrix α) (b : Operand α)
    (x : Tensor α) : Except Error (LinearSystem α × Iterate α) := do
  let bias ← b.rightHandSide A.rows
  let rows ← bias.leading
  let columns ← x.leading
  let system : LinearSystem α := ⟨A, rows, columns⟩
  let first ← system.start bias x
  .ok (system, first)

/-- A solver that remembers how its latest run went. -/
structure LinearSolver (α : Type) where
  /-- Precision and budget of every run. -/
  settings : LinearSettings α
  /-- The steps of the latest run. -/
  steps : Nat
  /-- Whether the latest run converged. -/
  converged : Bool

namespace LinearSolver

/-- A solver before its first run. -/
def fresh (settings : LinearSettings α) : LinearSolver α := ⟨settings, 0, false⟩

/-- The solver at the start of a run, which has taken no step. -/
def reset (solver : LinearSolver α) : LinearSolver α :=
  { solver with steps := 0, converged := false }

/-- The solver behind one more step. -/
def count (solver : LinearSolver α) : LinearSolver α := { solver with steps := solver.steps + 1 }

/-- The solver at an end that counts as convergence. -/
def converge (solver : LinearSolver α) : LinearSolver α := { solver with converged := true }

section
variable [Zero α] [Add α] [Sub α] [Mul α] [Div α] [LT α] [DecidableLT α] [BEq α]

/-- Takes up to `budget` steps, which the solver counts. -/
def search (A : LinearSystem α) :
    Nat → Iterate α → LinearSolver α → Except Error (Solution α) × LinearSolver α
  | 0, it, solver => (.ok ⟨it, .exhausted, []⟩, solver)
  | budget + 1, it, solver =>
    match A.forward (.dense (.ofList it.p)) with
    | .error e => (.error e, solver)
    | .ok q =>
      if Dense.normSq q == 0 then (.ok ⟨it, .nullDirection, []⟩, solver.converge)
      else
        match A.advance it q with
        | .error e => (.error e, solver)
        | .ok step =>
          let solver := solver.count
          if step.movement < solver.settings.precision then
            (.ok ⟨step.iterate, .smallMovement, [step]⟩, solver.converge)
          else if step.iterate.gamma == 0 then
            (.ok ⟨step.iterate, .vanished, [step]⟩, solver.converge)
          else
            let (rest, solver) := search A budget step.iterate solver
            (rest.map fun rest => ⟨rest.last, rest.ending, step :: rest.trace⟩, solver)

/-- A run of a solver for `A x ≈ b` from a starting point, and the solver behind it. The budget is
what the steps that the solver counts have left of it. -/
def run (solver : LinearSolver α) (A : BlockMatrix α) (b : Operand α) (x : Tensor α) :
    Except Error (Solution α) × LinearSolver α :=
  match LinearSystem.pose A b x with
  | .error e => (.error e, solver)
  | .ok (system, first) =>
    if first.gamma == 0 then (.ok ⟨first, .stationary, []⟩, solver.converge)
    else search system (solver.settings.maxIterations - solver.steps).toNat first solver

/-- A run of a solver, which forgets its latest run first. -/
def solve (solver : LinearSolver α) (A : BlockMatrix α) (b : Operand α) (x : Tensor α) :
    Except Error (Solution α) × LinearSolver α := solver.reset.run A b x

end

end LinearSolver

/-- The run of a new solver. -/
def LinearSettings.solve [Zero α] [Add α] [Sub α] [Mul α] [Div α] [LT α] [DecidableLT α] [BEq α]
    (settings : LinearSettings α) (A : BlockMatrix α) (b : Operand α) (x : Tensor α) :
    Except Error (Solution α) := ((LinearSolver.fresh settings).solve A b x).1

end LeastSquares
