import LeastSquares.BlockMatrix

/-!
# Coordinate form of block matrices

A block matrix is exported as its entries with their row and column (`BlockMatrix.coordinates`).
The entries are sorted by row, then by column, and entries of one position are added
(`mergeEntries`). Every position that a tile covers has an entry, also where the value is zero.
The positions are those between the bounds of a tile (`Tile.grid`), one for each scalar.
-/

namespace LeastSquares

/-- A scalar with its row and column. -/
structure Entry (α : Type) where
  /-- The row. -/
  row : Int
  /-- The column. -/
  column : Int
  /-- The scalar. -/
  value : α
deriving DecidableEq

namespace Entry

variable {α : Type}

/-- Whether an entry comes no later than another: by row, then by column. -/
def notAfter (e f : Entry α) : Bool :=
  e.row < f.row || (e.row == f.row && e.column ≤ f.column)

/-- Whether two entries have one position. -/
def samePosition (e f : Entry α) : Bool := e.row == f.row && e.column == f.column

end Entry

variable {α : Type}

/-- Sorted entries behind a current one, to which the entries of its position are added. -/
def absorb [Add α] (current : Entry α) : List (Entry α) → List (Entry α)
  | [] => [current]
  | e :: rest =>
    if current.samePosition e then
      absorb ⟨current.row, current.column, current.value + e.value⟩ rest
    else current :: absorb e rest

/-- Adds up the entries of each position in a sorted list. -/
def mergeEntries [Add α] : List (Entry α) → List (Entry α)
  | [] => []
  | e :: rest => absorb e rest

/-- The positions between the bounds of a tile, in row-major order. -/
def Tile.grid (t : Tile) : List (Int × Int) :=
  t.rows.toSpan.positions.flatMap fun i => t.columns.toSpan.positions.map fun j => (i, j)

/-- Refuses a span whose bounds are inverted. -/
def Span.checkOrder (s : Span) : Except Error Unit :=
  if s.stop < s.start then .error (.invertedSpan s) else .ok ()

namespace BlockMatrix

/-- The entries in storage order. -/
def entries (A : BlockMatrix α) : List (Entry α) :=
  List.zipWith (fun position value => ⟨position.1, position.2, value⟩)
    (A.tiles.flatMap Tile.grid) A.scalars

/-- The entries in ascending order of their positions, one for each position. -/
def coordinates [Add α] (A : BlockMatrix α) : Except Error (List (Entry α)) := do
  A.tiles.forM fun t => do
    t.rows.checkOrder
    t.columns.checkOrder
  if A.rows < 0 ∨ A.columns < 0 then .error .negativeSize
  else if (A.tiles.flatMap Tile.grid).length ≠ A.scalars.length then .error .lengthMismatch
  else .ok (mergeEntries (A.entries.mergeSort Entry.notAfter))

end BlockMatrix

end LeastSquares
