import LeastSquares.Proofs.Collation
import LeastSquares.Proofs.Products

/-!
# Collated rows on an axis

Rows are collated exactly when their blocks list the same positions, one by one
(`sameLayout_iff`, `BlockMatrix.collate_eq_rowLayout`), so blocks without a position may have other
bounds in each row.

The main statement, `BlockMatrix.collate_rows`: the collated matrix has the rows that it was made
of. On an axis that is long enough for all of them, its dense form continued by zeros consists of
the materialized rows, and a product with it of the inner products with these rows.
-/

open scoped Matrix

namespace LeastSquares

variable {K : Type}

/-- Layouts are the same when they list the same positions, block by block. -/
theorem sameLayout_iff {ss ts : List Span} :
    sameLayout ss ts = true ↔ ss.map Span.positions = ts.map Span.positions := by
  constructor
  · intro h
    rw [← List.forall₂_eq_eq_eq, List.forall₂_map_left_iff, List.forall₂_map_right_iff]
    exact (forall₂_of_sameLayout h).imp fun _ _ hst => Span.alike_iff.1 hst
  · intro h
    have hlength : ss.length = ts.length := by simpa using congrArg List.length h
    rw [← List.forall₂_eq_eq_eq, List.forall₂_map_left_iff, List.forall₂_map_right_iff] at h
    simp only [sameLayout, hlength, beq_self_eq_true, Bool.true_and, List.all_eq_true]
    intro b hb
    rw [← List.map_uncurry_zip_eq_zipWith] at hb
    obtain ⟨⟨s, t⟩, hst, rfl⟩ := List.mem_map.1 hb
    exact Span.alike_iff.2 ((List.forall₂_iff_zip.1 h).2 hst)

/-- A product with a matrix consists of the inner products with its rows. -/
theorem Dense.getElem?_mulVec [CommSemiring K] {m n : Nat} (M : Matrix (Fin m) (Fin n) K)
    (f : Fin n → K) (i : Fin m) :
    (List.ofFn (M *ᵥ f))[(i : Nat)]? = some (dot (List.ofFn (M i)) (List.ofFn f)) := by
  rw [List.getElem?_ofFn, dif_pos i.isLt, dot_ofFn]
  rfl

namespace BlockMatrix

/-- Rows are refused for their layout when one lists other positions than the first. -/
theorem collate_eq_rowLayout {first : BlockVector K} {rest : List (BlockVector K)} :
    collate (first :: rest) = .error .rowLayout ↔ ∃ row ∈ first :: rest,
      row.blocks.map Span.positions ≠ first.blocks.map Span.positions := by
  simp only [← sameLayout_iff, ne_eq, collate]
  split
  · rename_i h
    simp only [Bool.not_eq_true', List.all_eq_false] at h
    exact ⟨fun _ => h, fun _ => rfl⟩
  · rename_i h
    simp only [Bool.not_eq_true', Bool.not_eq_false, List.all_eq_true] at h
    constructor
    · intro he
      split at he <;> cases he
    · rintro ⟨row, hrow, hne⟩
      exact absurd (h row hrow) hne

/-- Rows of non-negative bounds, the first of which has a block, are refused exactly when one lists
other positions than the first. Otherwise they are the rows of a matrix: of its dense form, and of
its products. -/
theorem collate_rows [CommSemiring K] {first : BlockVector K} {rest : List (BlockVector K)}
    (hr : ∀ row ∈ first :: rest, row.Regular) (hb : first.blocks ≠ []) :
    (collate (first :: rest) = .error .rowLayout ↔ ∃ row ∈ first :: rest,
      row.blocks.map Span.positions ≠ first.blocks.map Span.positions) ∧
    ((∀ row ∈ first :: rest,
        row.blocks.map Span.positions = first.blocks.map Span.positions) →
      ∃ (A : BlockMatrix K) (D : Tensor K),
        collate (first :: rest) = .ok A ∧ A.dense = .ok D ∧
        A.tiles = first.blocks.map (fun block => ⟨Span.ofLength 0 (first :: rest).length, block⟩) ∧
        D.shape = [(first :: rest).length, A.columns.toNat] ∧
        ∀ N : Nat, A.columns ≤ N → (∀ row ∈ first :: rest, row.dimension ≤ N) →
          (∀ (i : Nat) (hi : i < (first :: rest).length),
            (first :: rest)[i].dense N = .ok (List.ofFn fun j : Fin N => D.cell i j)) ∧
          ∀ x : List K, N ≤ x.length → ∃ y : List K,
            A.apply (.dense (.ofList x)) = .ok y ∧ y.length = (first :: rest).length ∧
            ∀ (i : Nat) (hi : i < (first :: rest).length) (row : List K),
              (first :: rest)[i].dense N = .ok row → y[i]? = some (Dense.dot row (x.take N))) := by
  refine ⟨collate_eq_rowLayout, fun hpositions => ?_⟩
  have hwf : ∀ row ∈ first :: rest, row.WellFormed := fun row hrow => (hr row hrow).wellFormed
  have hfirst := hr first (List.mem_cons_self ..)
  have hon : ∀ block ∈ first.blocks, block.On first.dimension.toNat := by
    intro block hblock
    have hstop := BlockVector.stop_le_dimension hblock
    exact ⟨hfirst.nonneg block hblock, by omega⟩
  obtain ⟨A, hA, hregular, hrows, -, hentry⟩ := collate_spec hwf
    (fun row hrow => sameLayout_iff.2 (hpositions row hrow)) hb hon
  obtain ⟨-, htiles⟩ := wellFormed_collate hA hwf
  obtain ⟨D, hD, hshape, -⟩ := hregular.dense_eq
  refine ⟨A, D, hA, hD, htiles, by rw [hshape, hrows]; rfl, fun N hN hdim => ?_⟩
  have hdense : ∀ (i : Nat) (hi : i < (first :: rest).length),
      (first :: rest)[i].dense N = .ok (List.ofFn fun j : Fin N => D.cell i j) := by
    intro i hi
    have hrow := List.getElem_mem hi
    rw [(hr _ hrow).dense_eq (hdim _ hrow)]
    simp only [Int.toNat_natCast, hregular.cell_dense hD, hentry i hi]
  refine ⟨hdense, fun x hx => ?_⟩
  have hreach : A.columns ≤ x.length := by omega
  have happly := hregular.apply_of_resolve (Operand.resolve_ofList hreach) hreach
  rw [← hregular.toMatrix_mulVec hN (Int.self_le_toNat _)] at happly
  refine ⟨_, happly, by rw [List.length_ofFn, hrows]; rfl, fun i hi row hrow => ?_⟩
  have hi' : i < A.rows.toNat := by
    rw [hrows]
    exact hi
  cases (hdense i hi).symm.trans hrow
  rw [Dense.take_eq_ofFn hx]
  refine (Dense.getElem?_mulVec _ _ ⟨i, hi'⟩).trans ?_
  simp only [toMatrix, hregular.cell_dense hD]
  rfl

/-- Two rows whose blocks overlap and whose last blocks are empty at different places, and a row
without the last block. -/
theorem collate_rows_emptyBlocks :
    let v : BlockVector ℤ := ⟨[1, 2, 3, 4], [⟨0, 2⟩, ⟨1, 3⟩, ⟨5, 3⟩]⟩
    let w : BlockVector ℤ := ⟨[5, 6, 7, 8], [⟨0, 2⟩, ⟨1, 3⟩, ⟨7, 7⟩]⟩
    let u : BlockVector ℤ := ⟨[5, 6, 7, 8], [⟨0, 2⟩, ⟨1, 3⟩]⟩
    (∀ row ∈ [v, w, u], row.Regular) ∧ v.blocks ≠ [] ∧
      (∀ row ∈ [v, w], row.blocks.map Span.positions = v.blocks.map Span.positions) ∧
      collate [v, u] = .error .rowLayout ∧
      ∃ (A : BlockMatrix ℤ) (D : Tensor ℤ), collate [v, w] = .ok A ∧ A.dense = .ok D ∧
        D.shape = [2, 3] ∧ w.dense 7 = .ok (List.ofFn fun j : Fin 7 => D.cell 1 j) ∧
        w.dense 7 = .ok [5, 13, 8, 0, 0, 0, 0] ∧
        ∃ y, A.apply (.dense (.ofList [1, -1, 2, 5, 5, 5, 5, 5])) = .ok y ∧ y[1]? = some 8 := by
  intro v w u
  have hr : ∀ row ∈ [v, w, u], row.Regular := by
    intro row hrow
    have hdecide : ∀ row ∈ [v, w, u], row.WellFormed ∧ ∀ s ∈ row.blocks, s.Nonneg := by decide
    exact ⟨(hdecide row hrow).1, (hdecide row hrow).2⟩
  have hb : v.blocks ≠ [] := by decide
  have hpositions : ∀ row ∈ [v, w],
      row.blocks.map Span.positions = v.blocks.map Span.positions := by
    decide
  have hw : w.dense 7 = .ok [5, 13, 8, 0, 0, 0, 0] := by decide
  have hvu : ∀ row ∈ [v, u], row.Regular := fun row hrow => hr row (by grind)
  have hvw : ∀ row ∈ [v, w], row.Regular := fun row hrow => hr row (by grind)
  obtain ⟨hrefused, -⟩ := collate_rows hvu hb
  obtain ⟨-, hcollated⟩ := collate_rows hvw hb
  obtain ⟨A, D, hA, hD, -, hshape, hN⟩ := hcollated hpositions
  cases (rfl : collate [v, w] = .ok _).symm.trans hA
  obtain ⟨hrows, hproducts⟩ := hN 7 (by decide) (by decide)
  obtain ⟨y, hy, -, hentries⟩ := hproducts [1, -1, 2, 5, 5, 5, 5, 5] (by decide)
  refine ⟨hr, hb, hpositions, hrefused.2 ⟨u, by simp, by decide⟩, _, D, hA, hD, hshape,
    hrows 1 (by decide), hw, y, hy, hentries 1 (by decide) _ hw⟩

end BlockMatrix

end LeastSquares
