import LeastSquares.BlockMatrix.Product
import LeastSquares.Proofs.Materialization

/-!
# Panels of block matrices

A panel, a tile with the rows of scalars it owns, says something about the entry at every row and
column (`BlockMatrix.panelEntry`). On two axes that it fits (`BlockMatrix.Fits`) it is a
mathematical matrix (`BlockMatrix.panelMatrix`), and the three ways to use a panel compute with that
matrix: it adds its product with a vector (`Fits.applyPanel_ofFn`), its transposed product
(`Fits.adjointPanel_ofFn`), or its entries (`Fits.addPanel_ofFn`).
-/

open scoped Matrix

namespace LeastSquares

variable {K : Type}

/-- A tile whose bounds are not negative. -/
def Tile.Nonneg (t : Tile) : Prop := t.rows.Nonneg ∧ t.columns.Nonneg

instance (t : Tile) : Decidable t.Nonneg := inferInstanceAs (Decidable (_ ∧ _))

/-- A tile that has a scalar for every pair of a row and a column between its bounds. -/
def Tile.Solid (t : Tile) : Prop := t.rows.Solid ∧ t.columns.Solid

instance (t : Tile) : Decidable t.Solid := inferInstanceAs (Decidable (_ ∧ _))

namespace BlockMatrix

/-- What a panel says about the entry at a row and a column. -/
def panelEntry [Zero K] (panel : Tile × List (List K)) (i j : Int) : K :=
  panel.1.columns.pick 0 (panel.1.rows.pick [] panel.2 i) j

/-- A panel as a matrix on two axes. -/
def panelMatrix [Zero K] (m n : Nat) (panel : Tile × List (List K)) : Matrix (Fin m) (Fin n) K :=
  .of fun i j => panelEntry panel i j

/-- A panel that lies on two axes and has a scalar for each of its positions. -/
structure Fits (m n : Nat) (panel : Tile × List (List K)) : Prop where
  rows_on : panel.1.rows.On m
  columns_on : panel.1.columns.On n
  solid : panel.1.Solid
  height : panel.2.length = panel.1.rows.length
  width : ∀ row ∈ panel.2, row.length = panel.1.columns.length

/-- A panel that fits has as many rows as lie between its bounds. -/
theorem Fits.height_toSpan {m n : Nat} {panel : Tile × List (List K)} (h : Fits m n panel) :
    panel.2.length = panel.1.rows.toSpan.length := h.height.trans h.solid.1

/-- The rows of a panel that fits are as long as its columns between their bounds. -/
theorem Fits.width_toSpan {m n : Nat} {panel : Tile × List (List K)} (h : Fits m n panel) :
    ∀ row ∈ panel.2, row.length = panel.1.columns.toSpan.length :=
  fun row hrow => (h.width row hrow).trans h.solid.2

section
variable [CommSemiring K] {m n : Nat} {panel : Tile × List (List K)}

/-- A panel adds its product with a vector. -/
theorem Fits.applyPanel_ofFn (h : Fits m n panel) (x : Fin n → K) (f : Fin m → K) :
    applyPanel (List.ofFn x) (List.ofFn f) panel =
      .ok (List.ofFn (f + panelMatrix m n panel *ᵥ x)) := by
  have hpart : (panel.1.columns.slice (List.ofFn x)).length = panel.1.columns.length :=
    (h.columns_on.length_slice (by simp)).trans h.solid.2.symm
  simp only [applyPanel]
  rw [if_pos hpart, Span.accumulate_ofFn h.rows_on (by simp [Dense.mulVec, h.height_toSpan])]
  congr 2
  funext i
  -- the default row is empty, and so is its product
  have hrow : panel.1.rows.pick 0 (Dense.mulVec panel.2 (panel.1.columns.slice (List.ofFn x))) i =
      Dense.dot (panel.1.rows.pick [] panel.2 i) (panel.1.columns.slice (List.ofFn x)) :=
    panel.1.rows.pick_map (Dense.dot · (panel.1.columns.slice (List.ofFn x))) [] panel.2 i
  rw [hrow, ← Span.sum_pick_mul h.columns_on]
  rfl

/-- The product of a transposed list of rows, entry by entry. -/
theorem vecMul_eq_ofFn {c : Nat} {rows : List (List K)} (hw : ∀ row ∈ rows, row.length = c)
    (y : List K) :
    Dense.vecMul c y rows = List.ofFn fun k : Fin c => Dense.dot y (rows.map (·.getD k 0)) := by
  have hfold : ∀ (y : List K) (f : Fin c → K),
      (List.zipWith Dense.smul y rows).foldl Dense.add (List.ofFn f) =
        List.ofFn fun k => f k + Dense.dot y (rows.map (·.getD k 0)) := by
    induction rows with
    | nil => simp [Dense.dot]
    | cons row rows ih =>
      intro y f
      cases y with
      | nil => simp [Dense.dot]
      | cons a y =>
        have hrow := hw row (List.mem_cons_self ..)
        have hrow' := Dense.ofFn_toVector_of_length hrow
        rw [List.zipWith_cons_cons, List.foldl_cons, ← hrow', Dense.smul_ofFn, Dense.add_ofFn,
          ih (fun r hr => hw r (List.mem_cons_of_mem _ hr))]
        congr 1
        funext k
        simp [Dense.dot, add_assoc]
  rw [Dense.vecMul, replicate_eq_ofFn, hfold]
  simp only [zero_add]

/-- A panel adds its transposed product with a vector. -/
theorem Fits.adjointPanel_ofFn (h : Fits m n panel) (y : Fin m → K) (f : Fin n → K) :
    adjointPanel (List.ofFn y) (List.ofFn f) panel =
      .ok (List.ofFn (f + (panelMatrix m n panel)ᵀ *ᵥ y)) := by
  have hpart : (panel.1.rows.slice (List.ofFn y)).length = panel.1.rows.length :=
    (h.rows_on.length_slice (by simp)).trans h.solid.1.symm
  simp only [adjointPanel]
  rw [if_pos hpart, h.solid.2, vecMul_eq_ofFn h.width_toSpan,
    Span.accumulate_ofFn h.columns_on (by simp)]
  congr 2
  funext j
  show f j + _ = f j + ∑ i : Fin m, panelEntry panel i j * y i
  congr 1
  by_cases hj : panel.1.columns.start ≤ (j : Int) ∧ (j : Int) < panel.1.columns.stop
  · have hk : ((j : Int) - panel.1.columns.start).toNat < panel.1.columns.toSpan.length := by
      simp only [Span.length]
      omega
    have hentry : ∀ i : Fin m, panelEntry panel i j = panel.1.rows.pick 0
        (panel.2.map (·.getD ((j : Int) - panel.1.columns.start).toNat 0)) i := by
      intro i
      rw [panelEntry, Span.pick_of_mem hj]
      exact (panel.1.rows.pick_map
        (·.getD ((j : Int) - panel.1.columns.start).toNat 0) [] panel.2 i).symm
    rw [Span.pick_of_mem hj, List.getD_eq_getElem _ _ (by simpa using hk)]
    simp only [hentry, Span.sum_pick_mul h.rows_on, List.getElem_ofFn]
    exact Dense.dot_comm _ _
  · simp only [panelEntry, Span.pick_of_notMem hj, zero_mul, Finset.sum_const_zero]

end

/-- A panel adds its rows to the rows of a dense matrix. -/
theorem Fits.addPanel_ofFn [CommSemiring K] {m n : Nat} {panel : Tile × List (List K)}
    (h : Fits m n panel) (M : Matrix (Fin m) (Fin n) K) :
    addPanel n (List.ofFn fun i => List.ofFn (M i)) panel =
      .ok (List.ofFn fun i => List.ofFn ((M + panelMatrix m n panel) i)) := by
  have hl : (panel.1.rows.slice (List.ofFn fun i => List.ofFn (M i))).length =
      panel.1.rows.toSpan.length := h.rows_on.length_slice (by simp)
  have hlong : ∀ pair ∈ (panel.1.rows.slice (List.ofFn fun i => List.ofFn (M i))).zip panel.2,
      addRow panel.1.columns.toSpan pair.1 pair.2 =
        .ok (List.ofFn fun j : Fin n => pair.1.getD j 0 + panel.1.columns.pick 0 pair.2 j) := by
    rintro ⟨row, values⟩ hpair
    obtain ⟨hrow, hvalues⟩ := List.of_mem_zip hpair
    obtain ⟨i, rfl⟩ := List.mem_ofFn.1 (List.mem_of_mem_drop (List.mem_of_mem_take hrow))
    rw [addRow, Span.accumulate_ofFn h.columns_on (h.width_toSpan _ hvalues)]
    simp
  have hstretch : stretch (panel.1.rows.slice (List.ofFn fun i => List.ofFn (M i))).length panel.2 =
      .ok panel.2 := by
    rw [hl, ← h.height_toSpan]
    exact stretch_self _
  simp only [addPanel]
  rw [if_pos (.inl (h.solid.2.trans h.columns_on.extent_eq.symm)), Span.update_ofFn h.rows_on
    (by rw [hstretch]; exact mapM_eq_ok hlong) (by simp [hl, h.height_toSpan])]
  congr 2
  funext i
  by_cases hi : panel.1.rows.start ≤ (i : Int) ∧ (i : Int) < panel.1.rows.stop
  · rw [List.zip, List.map_zipWith, Span.pick_zipWith _ _ [] [] hl h.height_toSpan hi,
      h.rows_on.pick_slice _ _ hi]
    congr 1
    funext j
    simp [panelMatrix, panelEntry]
  · rw [Span.pick_of_notMem hi]
    congr 1
    funext j
    simp [panelMatrix, panelEntry, Span.pick_of_notMem hi]

end BlockMatrix

end LeastSquares
