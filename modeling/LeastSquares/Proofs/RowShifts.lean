import LeastSquares.Proofs.Construction
import LeastSquares.Proofs.Stacking

/-!
# Matrices moved down

Moving a matrix of contiguous tiles down changes the rows of its tiles and nothing else: motions add
up, they pass to both parts of a sum, and the constructor, which counts the scalars, accepts the
moved tiles. What is read from the matrix moves with it. The row at a position is the one that was
so far above it (`BlockMatrix.Solid.rowProduct_shiftRows`), so a product has zeros in front
(`BlockMatrix.Regular.apply_shiftRows`), and a product with the transposed matrix skips the front of
the vector (`BlockMatrix.Regular.adjoint_shiftRows`).

The main statement is `BlockMatrix.shiftRows_translates`.
-/

open scoped Matrix

namespace LeastSquares

variable {K : Type}

namespace Tile

theorem shiftRows_zero {t : Tile} (h : t.rows.Contiguous) : t.shiftRows 0 = t := by
  rw [shiftRows, Span.shift_zero, h.toStride_toSpan]

end Tile

namespace BlockMatrix

/-! ## Motions of a record -/

section
variable (A B : BlockMatrix K) (k : Int)

/-- A matrix of contiguous tiles that is moved by nothing stays the same. -/
theorem Contiguous.shiftRows_zero {A : BlockMatrix K} (h : A.Contiguous) : A.shiftRows 0 = A := by
  rw [BlockMatrix.shiftRows, List.map_congr_left fun t ht => Tile.shiftRows_zero (h t ht).1,
    List.map_id']

/-- A sum is moved by moving both of its parts. -/
theorem shiftRows_add : (A + B).shiftRows k = A.shiftRows k + B.shiftRows k :=
  congrArg (BlockMatrix.mk _) List.map_append

end

/-- A matrix with a tile has as many rows more as it is moved down. -/
theorem Regular.toNat_rows_shiftRows {A : BlockMatrix K} (h : A.Regular) (hne : A.tiles ≠ [])
    (k : Nat) : (A.shiftRows k).rows.toNat = k + A.rows.toNat := by
  have hrows := h.rows_nonneg
  rw [rows_shiftRows hne]
  omega

/-! ## Products of a moved matrix -/

section
variable [CommSemiring K] {A : BlockMatrix K}

/-- A row of a moved matrix is the one that was so far above it. -/
theorem Solid.rowProduct_shiftRows (h : A.Solid) {n : Nat} (x : Fin n → K) (k i : Int) :
    (A.shiftRows k).rowProduct x i = A.rowProduct x (i - k) := by
  simp only [rowProduct, h.entry_shiftRows]

/-- A product of a moved matrix has zeros in front. -/
theorem Regular.apply_shiftRows (h : A.Regular) (hne : A.tiles ≠ []) {x : Operand K} {xs : List K}
    (hx : x.resolve A.columns = .ok xs) (hxs : A.columns ≤ xs.length) (k : Nat) :
    ∃ ys, A.apply x = .ok ys ∧ (A.shiftRows k).apply x = .ok (List.replicate k 0 ++ ys) := by
  have hmoved : (A.shiftRows k).Regular := h.shiftRows (Int.natCast_nonneg k)
  have hcolumns := A.columns_shiftRows k
  have happly := hmoved.apply_of_resolve (hcolumns ▸ hx) (hcolumns ▸ hxs)
  rw [hcolumns] at happly
  refine ⟨_, h.apply_of_resolve hx hxs, happly.trans (congrArg Except.ok ?_)⟩
  rw [replicate_eq_ofFn]
  refine ofFn_eq_append (f := fun i => (A.shiftRows k).rowProduct (Dense.toVector _ xs) i)
    (g := fun _ => 0) (h := fun i => A.rowProduct (Dense.toVector _ xs) i)
    (h.toNat_rows_shiftRows hne k) (fun i hi => ?_) fun i _ => ?_
  · rw [h.solid.rowProduct_shiftRows, h.rowProduct_eq_zero _ (by omega)]
  · rw [h.solid.rowProduct_shiftRows, Nat.cast_add, add_sub_cancel_left]

/-- A transposed product of a moved matrix reads the vector behind its front. -/
theorem Regular.toMatrix_shiftRows_transpose_mulVec (h : A.Regular) (k m n : Nat) (ys : List K) :
    ((A.shiftRows k).toMatrix (k + m) n)ᵀ *ᵥ Dense.toVector (k + m) ys =
      (A.toMatrix m n)ᵀ *ᵥ Dense.toVector m (ys.drop k) := by
  funext j
  change ∑ i : Fin (k + m), (A.shiftRows k).entry (i : Nat) (j : Nat) * ys.getD i 0 =
    ∑ i : Fin m, A.entry (i : Nat) (j : Nat) * (ys.drop k).getD i 0
  -- the rows in front have no entries
  have hfront : ∀ i : Fin k, (A.shiftRows k).entry (i : Nat) (j : Nat) = 0 := by
    intro i
    rw [h.solid.entry_shiftRows, h.entry_eq_zero (by omega)]
  have hrest : ∀ i : Fin m,
      (A.shiftRows k).entry ((k + i : Nat) : Int) (j : Nat) = A.entry (i : Nat) (j : Nat) := by
    intro i
    rw [h.solid.entry_shiftRows, Nat.cast_add, add_sub_cancel_left]
  rw [Fin.sum_univ_add]
  simp only [Fin.val_castAdd, Fin.val_natAdd, hfront, hrest, zero_mul, Finset.sum_const_zero,
    zero_add, List.getD_eq_getElem?_getD, List.getElem?_drop]

/-- A product with a moved, transposed matrix skips the front of the vector. -/
theorem Regular.adjoint_shiftRows (h : A.Regular) (hne : A.tiles ≠ []) {k : Nat} {ys : List K}
    (hys : A.rows + k ≤ ys.length) :
    ∃ xs, A.adjoint (.dense (.ofList (ys.drop k))) = .ok xs ∧
      (A.shiftRows k).adjoint (.dense (.ofList ys)) = .ok xs := by
  have hrows := h.rows_nonneg
  have hmoved : (A.shiftRows k).Regular := h.shiftRows (Int.natCast_nonneg k)
  have hreach : (A.shiftRows k).rows ≤ ys.length := by rwa [rows_shiftRows hne]
  have hrest : A.rows ≤ (ys.drop k).length := by
    rw [List.length_drop]
    omega
  refine ⟨_, h.adjoint_of_resolve (Operand.resolve_ofList hrest) hrest, ?_⟩
  rw [hmoved.adjoint_of_resolve (Operand.resolve_ofList hreach) hreach, columns_shiftRows,
    h.toNat_rows_shiftRows hne, h.toMatrix_shiftRows_transpose_mulVec]

end

/-- Moving a matrix of contiguous tiles down is a shift. It is never refused, motions add up, none
changes nothing, and a sum is moved by moving its parts. Where no bound is negative and there is a
tile, a motion by some rows down adds them in front: the matrix has so many rows more, its products
begin with so many zeros, and products with its transpose read what lies behind so many entries. -/
theorem shiftRows_translates [CommSemiring K] {A B : BlockMatrix K} (hA : A.WellFormed)
    (hsteps : A.Contiguous) (hB : B.WellFormed) (hsteps' : B.Contiguous) (j k : Int) :
    A.moveDown k = .ok (A.shiftRows k) ∧
    (A.moveDown j >>= fun C => C.moveDown k) = .ok (A.shiftRows (j + k)) ∧
    A.moveDown 0 = .ok A ∧
    B.moveDown k = .ok (B.shiftRows k) ∧
    (A + B).moveDown k = .ok (A.shiftRows k + B.shiftRows k) ∧
    ((∀ t ∈ A.tiles, t.Nonneg) → A.tiles ≠ [] → 0 ≤ k →
      (A.shiftRows k).rows = A.rows + k ∧
      (∀ xs : List K, A.columns ≤ xs.length → ∃ ys,
        A.apply (.dense (.ofList xs)) = .ok ys ∧
        (A.shiftRows k).apply (.dense (.ofList xs)) = .ok (List.replicate k.toNat 0 ++ ys)) ∧
      ∀ ys : List K, A.rows + k ≤ ys.length → ∃ xs,
        A.adjoint (.dense (.ofList (ys.drop k.toNat))) = .ok xs ∧
        (A.shiftRows k).adjoint (.dense (.ofList ys)) = .ok xs) := by
  have hmove := hA.moveDown_eq hsteps.solid.rows
  have hmoved : (A.shiftRows j).moveDown k = .ok (A.shiftRows (j + k)) := by
    rw [(hA.shiftRows hsteps.solid.rows j).moveDown_eq (hsteps.shiftRows j).solid.rows,
      shiftRows_shiftRows]
  have hsum : (A + B).moveDown k = .ok (A.shiftRows k + B.shiftRows k) := by
    rw [(hA.add hB).moveDown_eq (hsteps.solid.add hsteps'.solid).rows, shiftRows_add]
  refine ⟨hmove k, bind_eq_ok.2 ⟨_, hmove j, hmoved⟩, ?_, hB.moveDown_eq hsteps'.solid.rows k, hsum,
    fun hn hne hk => ?_⟩
  · rw [hmove, hsteps.shiftRows_zero]
  · have h : A.Regular := ⟨⟨hA, hn⟩, hsteps.solid⟩
    obtain ⟨k, rfl⟩ := Int.eq_ofNat_of_zero_le hk
    rw [Int.toNat_natCast]
    exact ⟨rows_shiftRows hne k,
      fun xs hxs => h.apply_shiftRows hne (Operand.resolve_ofList hxs) hxs k,
      fun ys hys => h.adjoint_shiftRows hne hys⟩

/-- Two tiles that overlap, an inverted one and one without columns that reaches furthest. -/
theorem shiftRows_translates_overlapping :
    let A : BlockMatrix ℤ := ⟨[1, 2, 3, 4, 5, 6],
      [.ofBounds 0 2 0 2, .ofBounds 1 2 1 3, .ofBounds 3 1 0 1, .ofBounds 0 3 1 1]⟩
    let B : BlockMatrix ℤ := ⟨[7], [.ofBounds (-1) 0 2 3]⟩
    A.WellFormed ∧ A.Contiguous ∧ B.WellFormed ∧ B.Contiguous ∧ (∀ t ∈ A.tiles, t.Nonneg) ∧
      A.tiles ≠ [] ∧ A.moveDown 2 = .ok (A.shiftRows 2) ∧
      (A.moveDown (-5) >>= fun C => C.moveDown 2) = .ok (A.shiftRows (-3)) ∧ A.moveDown 0 = .ok A ∧
      (A + B).moveDown 2 = .ok (A.shiftRows 2 + B.shiftRows 2) ∧
      (A.shiftRows 2).rows = 5 ∧
      A.apply (.dense (.ofList [1, 0, 2, 9])) = .ok [1, 15, 0] ∧
      (A.shiftRows 2).apply (.dense (.ofList [1, 0, 2, 9])) = .ok [0, 0, 1, 15, 0] ∧
      A.adjoint (.dense (.ofList [3, 1, 4, 9])) = .ok [6, 15, 6] ∧
      (A.shiftRows 2).adjoint (.dense (.ofList [8, 8, 3, 1, 4, 9])) = .ok [6, 15, 6] := by
  intro A B
  have hA : A.WellFormed := by decide
  have hsteps : A.Contiguous := by decide
  have hB : B.WellFormed := by decide
  have hsteps' : B.Contiguous := by decide
  have hn : ∀ t ∈ A.tiles, t.Nonneg := by decide
  have hne : A.tiles ≠ [] := by decide
  obtain ⟨hmove, hadd, hzero, -, hsum, hmoved⟩ := shiftRows_translates hA hsteps hB hsteps' (-5) 2
  obtain ⟨hrows, happly, hadjoint⟩ := hmoved hn hne (by decide)
  have hproduct : A.apply (.dense (.ofList [1, 0, 2, 9])) = .ok [1, 15, 0] := by decide
  have hcoproduct : A.adjoint (.dense (.ofList [3, 1, 4, 9])) = .ok [6, 15, 6] := by decide
  obtain ⟨ys, hys, hshifted⟩ := happly [1, 0, 2, 9] (by decide)
  obtain ⟨xs, hxs, hshifted'⟩ := hadjoint [8, 8, 3, 1, 4, 9] (by decide)
  cases hproduct.symm.trans hys
  cases hcoproduct.symm.trans hxs
  exact ⟨hA, hsteps, hB, hsteps', hn, hne, hmove, hadd, hzero, hsum, hrows, hproduct, hshifted,
    hcoproduct, hshifted'⟩

end BlockMatrix

end LeastSquares
