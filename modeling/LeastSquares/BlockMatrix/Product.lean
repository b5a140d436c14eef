import LeastSquares.BlockMatrix

/-!
# Products of block matrices

The forward product `BlockMatrix.apply`, the adjoint product `BlockMatrix.adjoint` and the dense
matrix `BlockMatrix.dense` are three folds over the panels of a matrix. Each adds what a panel
contributes into the span that the panel covers, so overlapping tiles sum in all three.

A product takes a vector that is at least as long as the matrix reaches, or a block vector, which is
materialized first (`Operand.resolve`).
-/

namespace LeastSquares

/-- A vector that a matrix is multiplied with. -/
inductive Operand (α : Type) where
  | dense (x : Tensor α)
  | sparse (x : BlockVector α)

variable {α : Type}

/-- The operand as a list of at least `required` entries. -/
def Operand.resolve [Zero α] [Add α] (required : Int) : Operand α → Except Error (List α)
  | dense x =>
    match x.shape with
    | [n] => if (n : Int) < required then .error (.operand required x.shape) else .ok x.data
    | shape => .error (.operand required shape)
  | sparse x => x.dense (max required x.dimension)

namespace BlockMatrix

section
variable [Zero α] [Add α] [Mul α]

/-- Adds the product of a panel with its part of `x` into the rows that the panel covers. -/
def applyPanel (x acc : List α) (panel : Tile × List (List α)) : Except Error (List α) :=
  let part := panel.1.columns.slice x
  if part.length = panel.1.columns.length then
    panel.1.rows.accumulate (Dense.mulVec panel.2 part) acc
  else .error .lengthMismatch

/-- Adds the product of a transposed panel with its part of `y` into the columns that the panel
covers. -/
def adjointPanel (y acc : List α) (panel : Tile × List (List α)) : Except Error (List α) :=
  let part := panel.1.rows.slice y
  if part.length = panel.1.rows.length then
    panel.1.columns.accumulate (Dense.vecMul panel.1.columns.length part panel.2) acc
  else .error .lengthMismatch

/-- The product with a vector. -/
def apply (A : BlockMatrix α) (x : Operand α) : Except Error (List α) := do
  let x ← x.resolve A.columns
  let start ← zeros A.rows
  A.panels.foldlM (applyPanel x) start

/-- The product of the transposed matrix with a vector. -/
def adjoint (A : BlockMatrix α) (y : Operand α) : Except Error (List α) := do
  let y ← y.resolve A.rows
  let start ← zeros A.columns
  A.panels.foldlM (adjointPanel y) start

end

section
variable [Zero α] [Add α]

/-- A matrix of zeros, given by its rows. -/
def zeroRows (rows columns : Int) : Except Error (List (List α)) :=
  if rows < 0 then .error .negativeSize
  else do
    let row ← zeros columns
    .ok (List.replicate rows.toNat row)

/-- Adds a row of a panel into the columns that the panel covers. -/
def addRow (columns : Span) (row values : List α) : Except Error (List α) :=
  columns.accumulate values row

/-- Adds the rows of a panel into the part of a dense matrix that the panel covers. -/
def addPanel (width : Nat) (acc : List (List α)) (panel : Tile × List (List α)) :
    Except Error (List (List α)) :=
  let covered := panel.1.columns.extent width
  if panel.1.columns.length = covered ∨ panel.1.columns.length = 1 then
    panel.1.rows.update (fun part => do
      let values ← stretch part.length panel.2
      (part.zip values).mapM fun pair => addRow panel.1.columns.toSpan pair.1 pair.2) acc
  else .error .lengthMismatch

/-- The dense matrix, given by its rows. -/
def denseRows (A : BlockMatrix α) : Except Error (List (List α)) := do
  let start ← zeroRows A.rows A.columns
  A.panels.foldlM (addPanel A.columns.toNat) start

/-- The dense matrix as a tensor. -/
def dense (A : BlockMatrix α) : Except Error (Tensor α) := do
  let rows ← A.denseRows
  Tensor.ofData [A.rows.toNat, A.columns.toNat] rows.flatten

end

end BlockMatrix

end LeastSquares
