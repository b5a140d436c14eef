import LeastSquares.BlockMatrix.Coordinates
import LeastSquares.Factor.Linearization
import LeastSquares.Minimizer

/-!
# Limits of the machine

Block vectors and matrices may cover positions anywhere on the integers, but what is materialized
must fit the machine: lengths and sizes are integers of 64 bits, and memory is limited. Each
operation of this module is the operation of the library of the same name, refused where a length or
a size is beyond these limits.
-/

namespace LeastSquares.Machine

variable {α : Type}

/-- The greatest machine integer. -/
def greatest : Int := 9223372036854775807

/-- The least machine integer. -/
def least : Int := -greatest - 1

/-- The number of entries that memory can hold. -/
def memory : Int := 2147483648

/-- Refuses a number of entries that memory cannot hold. -/
def checkMemory (n : Int) : Except Error Unit :=
  if memory < n then .error .outOfMemory else .ok ()

/-- Refuses a size that the machine cannot hold. -/
def checkSize (n : Int) : Except Error Unit :=
  if n < least ∨ greatest < n then .error .sizeOverflow else checkMemory n

/-- Refuses a length that is no machine integer. -/
def checkLength (n : Nat) : Except Error Unit :=
  if greatest < n then .error .lengthOverflow else .ok ()

/-- Refuses a span with a bound that is no machine integer. -/
def checkBounds (s : Span) : Except Error Unit :=
  if s.start < least ∨ greatest < s.start ∨ s.stop < least ∨ greatest < s.stop then
    .error .lengthOverflow
  else .ok ()

/-- Refuses tiles that are longer than memory in one direction. -/
def checkTiles (A : BlockMatrix α) : Except Error Unit :=
  A.tiles.forM fun t => do
    checkMemory t.rows.length
    checkMemory t.columns.length

/-- Refuses the dense vector of a given length. A length below the dimension is not refused here. -/
def checkDense (v : BlockVector α) (entries : Int) : Except Error Unit :=
  if entries < v.dimension then .ok () else checkSize entries

/-- A vector of one block. -/
def ofBlock (scalars : List α) (block : Span) : Except Error (BlockVector α) := do
  checkLength block.length
  BlockVector.ofBlock scalars block

/-- Refuses tiles with a side whose length is no machine integer. -/
def checkSides (tiles : List Tile) : Except Error Unit :=
  tiles.forM fun t => do
    checkLength t.rows.length
    checkLength t.columns.length

section
variable [Zero α] [Add α]

/-- The dense vector of the given length. -/
def dense (v : BlockVector α) (entries : Int) : Except Error (List α) := do
  checkDense v entries
  v.dense entries

/-- The operand as a dense vector of at least `required` entries. -/
def resolve (required : Int) (x : Operand α) : Except Error (List α) := do
  match x with
  | .dense _ => .ok ()
  | .sparse v => checkDense v (max required v.dimension)
  x.resolve required

/-- The dense matrix. -/
def denseMatrix (A : BlockMatrix α) : Except Error (Tensor α) := do
  checkSize A.rows
  checkSize A.columns
  checkTiles A
  if 0 ≤ A.rows ∧ 0 ≤ A.columns then checkMemory (A.rows * A.columns)
  A.dense

variable [Mul α]

/-- The squared length of the dense vector. -/
def normSq (v : BlockVector α) : Except Error α := do
  checkDense v v.dimension
  v.normSq

/-- The product with a vector. -/
def apply (A : BlockMatrix α) (x : Operand α) : Except Error (List α) := do
  let x ← resolve A.columns x
  checkSize A.rows
  checkTiles A
  A.apply (.dense (.ofList x))

/-- The product of the transposed matrix with a vector. -/
def adjoint (A : BlockMatrix α) (y : Operand α) : Except Error (List α) := do
  let y ← resolve A.rows y
  checkSize A.columns
  checkTiles A
  A.adjoint (.dense (.ofList y))

end

/-- The entries in ascending order of their positions. -/
def coordinates [Add α] (A : BlockMatrix α) : Except Error (List (Entry α)) := do
  A.tiles.forM fun t => do
    checkIndices t.rows.toSpan
    checkIndices t.columns.toSpan
  if greatest < A.rows * A.columns then .error .outOfMemory else A.coordinates
where
  /-- Refuses the list of positions of a span. -/
  checkIndices (s : Span) : Except Error Unit := do
    checkBounds s
    s.checkOrder
    checkMemory s.length

/-- The linear model of a residual. A residual with many axes that depends on variables is refused:
what was stretched to it cannot be summed on the way back. -/
def linearize [Zero α] [One α] [Add α] [Neg α] [Mul α] [Elementary α] (f : ResidualFactor α)
    (s : Assignment α) : Except Error (LinearModel α) := do
  let model ← f.linearize s
  let r ← f.residual.trace s
  let independent := (r.adjoint r.value.data).isEmpty
  if Traced.maxSummedAxes < r.value.shape.length ∧ ¬independent then .error .tooManySummed
  else .ok model

/-- Refuses a linear model that the minimizer cannot hold. -/
def checkModel (model : LinearModel α) : Except Error Unit := do
  checkDense model.bias (max model.matrix.rows model.bias.dimension)
  checkSize model.matrix.rows
  checkSize model.matrix.columns
  checkTiles model.matrix

/-- The right-hand side of a system as a tensor. -/
def rightHandSide [Zero α] [Add α] (rows : Int) (b : Operand α) : Except Error (Tensor α) := do
  match b with
  | .dense _ => .ok ()
  | .sparse v => checkDense v (max rows v.dimension)
  b.rightHandSide rows

/-- Refuses a system whose products the machine cannot hold. An unknown that does not fit the matrix
is not refused here. -/
def checkSystem [Zero α] [Add α] (A : BlockMatrix α) (x : Tensor α) : Except Error Unit :=
  match (Operand.dense x).resolve A.columns with
  | .ok _ => do
    checkSize A.rows
    checkTiles A
  | .error _ => .ok ()

end LeastSquares.Machine
