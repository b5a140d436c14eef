import LeastSquares.BlockVector
import LeastSquares.Stride
import LeastSquares.Tensor

/-!
# Block matrices

A block matrix is a list of dense rectangular tiles over one buffer of scalars: each tile owns the
next run of the buffer, read row by row (`BlockMatrix.panels`). Tiles may overlap, and what overlaps
adds up. So the contributions of several factors to one variable need no merging when a system is
assembled: matrices are added by appending their records.

`BlockMatrix.ofTiles` counts the scalars, and this is all that it looks at: the rows and columns of
a tile are strides, of any step, and the tile owns a scalar for each pair of their positions.
Products and dense forms select by the bounds alone.

`BlockMatrix.collate` stacks block vectors of one layout into a matrix, `BlockMatrix.ofDense` wraps
a dense block, and `BlockMatrix.moveDown` moves a matrix to later rows. The rows of a moved tile are
contiguous, so its scalars are counted again (`BlockMatrix.recount`).
-/

namespace LeastSquares

/-- The position of a dense block in a larger matrix. -/
structure Tile where
  /-- The rows that the block covers. -/
  rows : Stride
  /-- The columns that the block covers. -/
  columns : Stride
deriving DecidableEq, Repr

namespace Tile

/-- The tile of contiguous rows and columns between the given bounds. -/
def ofBounds (firstRow rowStop firstColumn columnStop : Int) : Tile :=
  ⟨(⟨firstRow, rowStop⟩ : Span), (⟨firstColumn, columnStop⟩ : Span)⟩

/-- The number of scalars of the block. -/
def size (t : Tile) : Nat := t.rows.length * t.columns.length

/-- The tile moved down by `offset` rows. The bounds are moved, and rows between them are not
stepped over any more. -/
def shiftRows (t : Tile) (offset : Int) : Tile := ⟨t.rows.shift offset, t.columns⟩

/-- Whether two tiles cover the same rows and the same columns. -/
def alike (t u : Tile) : Bool := t.rows.alike u.rows && t.columns.alike u.columns

@[simp] theorem rows_shiftRows (t : Tile) (k : Int) :
    (t.shiftRows k).rows = (t.rows.shift k).toStride := rfl

@[simp] theorem columns_shiftRows (t : Tile) (k : Int) : (t.shiftRows k).columns = t.columns := rfl

/-- A moved tile keeps its size unless its rows were stepped over. -/
theorem size_shiftRows {t : Tile} (h : t.rows.Solid) (k : Int) : (t.shiftRows k).size = t.size := by
  rw [size, rows_shiftRows, columns_shiftRows, Span.length_toStride, Span.length_shift, size, h]

end Tile

/-- A matrix as a record of tiles and of the scalars they own, in order. -/
structure BlockMatrix (α : Type) where
  /-- The scalars of all tiles, each tile row by row. -/
  scalars : List α
  /-- The position of each tile. -/
  tiles : List Tile
deriving DecidableEq

/-- Whether two lists of spans cover the same positions, one by one. -/
def sameLayout (ss ts : List Span) : Bool :=
  ss.length == ts.length && (List.zipWith Span.alike ss ts).all id

namespace BlockMatrix

variable {α β : Type}

/-- The number of scalars that a list of tiles owns. -/
def required (tiles : List Tile) : Nat := total (tiles.map Tile.size)

/-- A matrix of the given tiles, which must own exactly the given vector of scalars. -/
def ofTiles (scalars : Tensor α) (tiles : List Tile) : Except Error (BlockMatrix α) :=
  if scalars.shape = [required tiles] then .ok ⟨scalars.data, tiles⟩
  else .error (.tileScalars (required tiles) scalars.shape)

/-- The matrix without tiles. -/
instance : Zero (BlockMatrix α) := ⟨⟨[], []⟩⟩

instance : Add (BlockMatrix α) := ⟨fun A B => ⟨A.scalars ++ B.scalars, A.tiles ++ B.tiles⟩⟩

/-- The bound behind all rows. -/
def rows (A : BlockMatrix α) : Int := ((A.tiles.map fun t => t.rows.stop).max?).getD 0

/-- The bound behind all columns. -/
def columns (A : BlockMatrix α) : Int := ((A.tiles.map fun t => t.columns.stop).max?).getD 0

/-- The matrix with `f` applied to each scalar. -/
def map (f : α → β) (A : BlockMatrix α) : BlockMatrix β := ⟨A.scalars.map f, A.tiles⟩

/-- The record of the matrix with its tiles moved down by `offset` rows. -/
def shiftRows (A : BlockMatrix α) (offset : Int) : BlockMatrix α :=
  ⟨A.scalars, A.tiles.map (·.shiftRows offset)⟩

/-- The matrix of the same parts, whose scalars are counted again. -/
def recount (A : BlockMatrix α) : Except Error (BlockMatrix α) :=
  ofTiles (.ofList A.scalars) A.tiles

/-- The matrix moved down by `offset` rows. -/
def moveDown (A : BlockMatrix α) (offset : Int) : Except Error (BlockMatrix α) :=
  (A.shiftRows offset).recount

/-- The tiles with the rows of scalars they own. -/
def panels (A : BlockMatrix α) : List (Tile × List (List α)) :=
  List.zipWith (fun t run => (t, rowsOf t.rows.length t.columns.length run)) A.tiles
    (runs (A.tiles.map Tile.size) A.scalars)

/-- A dense block as a matrix of one tile, whose first row and column are given. -/
def ofDense (block : Tensor α) (firstRow firstColumn : Int) : Except Error (BlockMatrix α) :=
  match block.matrix? with
  | some (r, c) =>
    .ok ⟨block.data, [⟨Span.ofLength firstRow r, Span.ofLength firstColumn c⟩]⟩
  | none => .error (.notMatrix block.shape)

/-- The scalars of stacked rows, block by block: of each row the run that the block owns. -/
def collateScalars : List Nat → List (List α) → List α
  | [], _ => []
  | n :: ns, rows => (rows.map (·.take n)).flatten ++ collateScalars ns (rows.map (·.drop n))

/-- Stacks block vectors of one layout, top to bottom, into a matrix with a tile for each block. -/
def collate : List (BlockVector α) → Except Error (BlockMatrix α)
  | [] => .ok 0
  | first :: rest =>
    let rows := first :: rest
    if !rows.all fun row => sameLayout row.blocks first.blocks then .error .rowLayout
    else if first.blocks.isEmpty then .error .nothingToCollate
    else .ok ⟨collateScalars (first.blocks.map Span.length) (rows.map (·.scalars)),
      first.blocks.map fun block : Span => ⟨Span.ofLength 0 rows.length, block⟩⟩

@[simp] theorem scalars_add (A B : BlockMatrix α) : (A + B).scalars = A.scalars ++ B.scalars := rfl

@[simp] theorem tiles_add (A B : BlockMatrix α) : (A + B).tiles = A.tiles ++ B.tiles := rfl

@[simp] theorem scalars_zero : (0 : BlockMatrix α).scalars = [] := rfl

@[simp] theorem tiles_zero : (0 : BlockMatrix α).tiles = [] := rfl

@[simp] theorem scalars_shiftRows (A : BlockMatrix α) (k : Int) :
    (A.shiftRows k).scalars = A.scalars := rfl

@[simp] theorem tiles_shiftRows (A : BlockMatrix α) (k : Int) :
    (A.shiftRows k).tiles = A.tiles.map (·.shiftRows k) := rfl

end BlockMatrix

end LeastSquares
