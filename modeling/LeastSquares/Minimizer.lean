import LeastSquares.Graph
import LeastSquares.LinearSolver

/-!
# Nonlinear least squares

Lowers the cost of a factor graph by the method of Gauss and Newton. Each iteration linearizes the
graph at the current assignment, solves the linear least-squares problem from a zero tangent vector
by conjugate gradients, and moves the assignment along the solution (`Settings.descend`). One linear
solver serves all iterations of a run.

A run ends when the gradient is small, when the cost is no longer finite (the assignment is then the
one before the move), when neither the cost nor the assignment moves any more, or when the budget is
used up. Its outcome lists the moves that were accepted.
-/

namespace LeastSquares

namespace Minimizer

variable {α : Type}

/-- Budget and tolerances of a run, and whether it reports its progress. -/
structure Settings (α : Type) where
  /-- The number of moves a run may make; none if it is negative. -/
  maxIterations : Int
  /-- The change of cost regarded as none. -/
  absoluteChange : α
  /-- The change of cost, relative to the cost, regarded as none. -/
  relativeChange : α
  /-- The length of a move regarded as none. -/
  stepNorm : α
  /-- The length of the gradient regarded as zero. -/
  gradientNorm : α
  /-- Precision and budget of the linear solver. -/
  linear : LinearSettings α
  /-- Whether progress is reported. -/
  verbose : Bool

/-- The settings used where none are given. -/
def Settings.standard [OfScientific α] : Settings α :=
  ⟨20, 1e-7, 1e-7, 1e-7, 1e-7, .standard, false⟩

/-- An accepted move. -/
structure Move (α : Type) where
  /-- The number of moves before this one. -/
  index : Nat
  /-- The assignment behind the move. -/
  assignment : Assignment α
  /-- Its cost. -/
  cost : α
  /-- By how much the move lowered the cost. -/
  change : α
  /-- The length of the move. -/
  stepNorm : α
  /-- The length of the gradient before the move. -/
  gradientNorm : α
  /-- The steps of the linear solver. -/
  linearSteps : Nat

/-- Why a run ended. -/
inductive Ending (α : Type) where
  /-- The cost at the start is not finite. -/
  | unboundedStart (cost : α)
  /-- The joint tangent space is trivial. -/
  | nothingToMove
  /-- The gradient is below its tolerance. -/
  | flat
  /-- The cost behind the next move, whose index is given, is not finite. -/
  | unbounded (cost : α) (index : Nat)
  /-- The latest move changed neither the cost nor the assignment beyond tolerance. -/
  | settled
  /-- The budget was used up. -/
  | exhausted

/-- A run that ended. -/
structure Outcome (α : Type) where
  /-- The assignment that was reached. -/
  assignment : Assignment α
  /-- Why the run ended. -/
  ending : Ending α
  /-- The accepted moves in order. -/
  trace : List (Move α)

/-- A change of cost relative to the cost before it; costs that are next to nothing are not divided
by. -/
def relative [Zero α] [Neg α] [Div α] [LT α] [DecidableLT α] [OfScientific α] (change cost : α) :
    α :=
  if 1e-12 < magnitude cost then change / magnitude cost else change

/-- Whether a move is taken to be the last: it is short, and the cost hardly changed. -/
def Settings.settles [Zero α] [Neg α] [Div α] [LT α] [DecidableLT α] [OfScientific α]
    (settings : Settings α) (change cost stepNorm : α) : Bool :=
  (magnitude change < settings.absoluteChange
      || magnitude (relative change cost) < settings.relativeChange)
    && stepNorm < settings.stepNorm

section
variable [Zero α] [Add α] [Sub α] [Neg α] [Mul α] [Div α] [LT α] [DecidableLT α] [BEq α]
  [OfScientific α] [Elementary α]

/-- Makes up to `budget` moves from an assignment of known cost, with a linear solver. -/
def Settings.descend (settings : Settings α) (g : Graph α) :
    LinearSolver α → Nat → Nat → Assignment α → α → Except Error (Outcome α)
  | _, 0, _, s, _ => .ok ⟨s, .exhausted, []⟩
  | solver, budget + 1, index, s, cost => do
    let model ← g.linearize s
    let gradient ← model.matrix.adjoint (.sparse model.bias)
    let gradientNorm := Elementary.norm gradient
    if gradientNorm < settings.gradientNorm then .ok ⟨s, .flat, []⟩
    else do
      let (result, solver) := solver.solve model.matrix (.sparse model.bias)
        (.ofList (List.replicate s.dimension 0))
      let solution ← result
      let step := solution.last.x
      let stepNorm := Elementary.norm step
      let moved ← s.move (.ofList step)
      let newCost ← g.cost moved
      if isFinite newCost then do
        let change := cost - newCost
        let move : Move α :=
          ⟨index, moved, newCost, change, stepNorm, gradientNorm, solution.last.steps⟩
        if settings.settles change cost stepNorm then .ok ⟨moved, .settled, [move]⟩
        else do
          let rest ← settings.descend g solver budget (index + 1) moved newCost
          .ok ⟨rest.assignment, rest.ending, move :: rest.trace⟩
      else .ok ⟨s, .unbounded newCost index, []⟩

/-- Lowers the cost of a graph, beginning at an assignment. -/
def Settings.minimize (settings : Settings α) (g : Graph α) (s : Assignment α) :
    Except Error (Outcome α) := do
  let cost ← g.cost s
  if !isFinite cost then .ok ⟨s, .unboundedStart cost, []⟩
  else if s.dimension = 0 then .ok ⟨s, .nothingToMove, []⟩
  else settings.descend g (.fresh settings.linear) settings.maxIterations.toNat 0 s cost

end

end Minimizer

end LeastSquares
