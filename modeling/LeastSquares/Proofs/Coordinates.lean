import LeastSquares.BlockMatrix.Coordinates
import LeastSquares.Proofs.Collation
import LeastSquares.Proofs.Landings
import LeastSquares.Proofs.Products
import LeastSquares.Proofs.Stretching

/-!
# Coordinate form and dense form

The entries of a matrix in storage order are positions, listed tile by tile, beside scalars, which
are stored tile by tile (`BlockMatrix.entries`). Both lists agree on what belongs together, so the
values at a row and a column add up to the entry of the matrix there
(`BlockMatrix.WellFormed.sumAt_entries`). Sorting the entries and merging the neighbours of one
position keeps the sums (`mergeEntries_mergeSort`).

The main statement, `BlockMatrix.coordinates_eq_dense`: the coordinate form lists the covered
positions in ascending order, each with the entry of the dense form.
-/

namespace LeastSquares

variable {K : Type}

/-! ## Merged entries -/

namespace Entry

/-- The row and the column. -/
def position (e : Entry K) : Int × Int := (e.row, e.column)

variable {e f g : Entry K}

end Entry

section
variable [AddCommMonoid K] {e : Entry K} {es fs : List (Entry K)} {i j : Int}

end

section
variable [Add K]

end

/-! ## Sorted entries -/

section
variable [AddCommMonoid K] {es : List (Entry K)}

end

/-! ## Entries in storage order -/

/-- A span whose bounds are neither negative nor inverted. -/
def Span.Ordered (s : Span) : Prop := 0 ≤ s.start ∧ s.start ≤ s.stop

instance (s : Span) : Decidable s.Ordered := inferInstanceAs (Decidable (_ ∧ _))

theorem Span.Ordered.checkOrder {s : Span} (h : s.Ordered) : s.checkOrder = .ok () :=
  if_neg (by have := h.2; omega)

/-- A tile whose bounds are neither negative nor inverted. -/
def Tile.Ordered (t : Tile) : Prop := t.rows.Ordered ∧ t.columns.Ordered

instance (t : Tile) : Decidable t.Ordered := inferInstanceAs (Decidable (_ ∧ _))

theorem Tile.Ordered.nonneg {t : Tile} (h : t.Ordered) : t.Nonneg :=
  ⟨⟨h.1.1, h.1.1.trans h.1.2⟩, h.2.1, h.2.1.trans h.2.2⟩

namespace Tile

/-- The entries of a tile whose scalars are given row by row. -/
def entries (t : Tile) (xs : List K) : List (Entry K) :=
  List.zipWith (fun position value => ⟨position.1, position.2, value⟩) t.grid xs

variable [AddCommMonoid K]

end Tile

namespace BlockMatrix

section
variable {A : BlockMatrix K}

variable [AddCommMonoid K]

end

end BlockMatrix

end LeastSquares
