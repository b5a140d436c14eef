import LeastSquares.Proofs.Panels

/-!
# Entries of block matrices

A block matrix has an entry at every pair of integer positions (`BlockMatrix.entry`): the sum of
what its panels say about the pair. A regular matrix, one whose tiles own all scalars, have no
negative bounds and are solid, is the matrix of its entries on any two axes that are long enough
(`BlockMatrix.toMatrix`), and the three folds over its panels compute with that matrix: the forward
product (`BlockMatrix.Regular.apply_eq`), the adjoint product (`BlockMatrix.Regular.adjoint_eq`)
and the dense rows (`BlockMatrix.Regular.denseRows_eq`).
-/

open scoped Matrix

namespace LeastSquares

variable {K : Type}

@[simp] theorem Tile.shiftRows_shiftRows (t : Tile) (j k : Int) :
    (t.shiftRows j).shiftRows k = t.shiftRows (j + k) := by
  simp only [shiftRows, Span.toSpan_toStride, Span.shift_shift]

namespace BlockMatrix

/-- Motions of a matrix add up. -/
@[simp] theorem shiftRows_shiftRows (A : BlockMatrix K) (j k : Int) :
    (A.shiftRows j).shiftRows k = A.shiftRows (j + k) := by
  simp only [shiftRows, List.map_map, Function.comp_def, Tile.shiftRows_shiftRows]

/-- The tiles own exactly the scalars that are stored. -/
def WellFormed (A : BlockMatrix K) : Prop := required A.tiles = A.scalars.length

instance (A : BlockMatrix K) : Decidable A.WellFormed := inferInstanceAs (Decidable (_ = _))

/-- All tiles have a scalar for every pair of a row and a column between their bounds. -/
def Solid (A : BlockMatrix K) : Prop := ∀ t ∈ A.tiles, t.Solid

instance (A : BlockMatrix K) : Decidable A.Solid :=
  inferInstanceAs (Decidable (∀ t ∈ A.tiles, t.Solid))

/-- A well-formed matrix whose tiles have no negative bounds. -/
structure Admissible (A : BlockMatrix K) : Prop where
  wellFormed : A.WellFormed
  nonneg : ∀ t ∈ A.tiles, t.Nonneg

/-- An admissible matrix whose tiles step over no rows. -/
structure Level (A : BlockMatrix K) : Prop extends Admissible A where
  rows_solid : ∀ t ∈ A.tiles, t.rows.Solid

/-- An admissible matrix whose tiles step over nothing. -/
structure Regular (A : BlockMatrix K) : Prop extends Admissible A where
  solid : A.Solid

instance (A : BlockMatrix K) : Decidable A.Admissible :=
  decidable_of_iff (A.WellFormed ∧ ∀ t ∈ A.tiles, t.Nonneg)
    ⟨fun h => ⟨h.1, h.2⟩, fun h => ⟨h.wellFormed, h.nonneg⟩⟩

instance (A : BlockMatrix K) : Decidable A.Regular :=
  decidable_of_iff (A.Admissible ∧ A.Solid)
    ⟨fun h => ⟨h.1, h.2⟩, fun h => ⟨h.toAdmissible, h.solid⟩⟩

theorem Admissible.regular {A : BlockMatrix K} (h : A.Admissible) (hs : A.Solid) : A.Regular :=
  ⟨h, hs⟩

theorem Regular.level {A : BlockMatrix K} (h : A.Regular) : A.Level :=
  ⟨h.toAdmissible, fun t ht => (h.solid t ht).1⟩

/-- The entry at a row and a column: what the panels say about it, added up. -/
def entry [Zero K] [Add K] (A : BlockMatrix K) (i j : Int) : K :=
  (A.panels.map fun panel => panelEntry panel i j).sum

/-- The matrix of entries on two axes. -/
def toMatrix [Zero K] [Add K] (A : BlockMatrix K) (m n : Nat) : Matrix (Fin m) (Fin n) K :=
  .of fun i j => A.entry i j

/-- A matrix that the constructor accepts is well formed. -/
theorem wellFormed_of_ofTiles {scalars : Tensor K} {tiles : List Tile} {A : BlockMatrix K}
    (h : ofTiles scalars tiles = .ok A) : A.tiles = tiles ∧ A.WellFormed := by
  unfold ofTiles at h
  split at h
  · rename_i hs
    cases h
    refine ⟨rfl, ?_⟩
    simp [WellFormed, scalars.length_data, hs]
  · cases h

section
variable {A : BlockMatrix K} {m n : Nat}

theorem rows_stop_le {t : Tile} (ht : t ∈ A.tiles) : t.rows.stop ≤ A.rows :=
  le_getD_max? (List.mem_map_of_mem ht)

theorem columns_stop_le {t : Tile} (ht : t ∈ A.tiles) : t.columns.stop ≤ A.columns :=
  le_getD_max? (List.mem_map_of_mem ht)

/-- Where all tiles end at one row, the matrix does. -/
theorem rows_eq_of_stop (hne : A.tiles ≠ []) (h : ∀ t ∈ A.tiles, t.rows.stop = m) :
    A.rows = m := by
  obtain ⟨t, ht⟩ := List.exists_mem_of_ne_nil _ hne
  refine le_antisymm (getD_max?_le (Int.natCast_nonneg m) fun b hb => ?_)
    ((h t ht).symm.le.trans (rows_stop_le ht))
  obtain ⟨u, hu, rfl⟩ := List.mem_map.1 hb
  exact (h u hu).le

theorem Admissible.rows_nonneg (h : A.Admissible) : 0 ≤ A.rows := by
  refine getD_max?_nonneg fun x hx => ?_
  obtain ⟨t, ht, rfl⟩ := List.mem_map.1 hx
  exact (h.nonneg t ht).1.2

theorem Admissible.columns_nonneg (h : A.Admissible) : 0 ≤ A.columns := by
  refine getD_max?_nonneg fun x hx => ?_
  obtain ⟨t, ht, rfl⟩ := List.mem_map.1 hx
  exact (h.nonneg t ht).2.2

/-- A panel of a well-formed matrix has the rows and columns of its tile. -/
theorem WellFormed.mem_panels (h : A.WellFormed)
    {panel : Tile × List (List K)} (hp : panel ∈ A.panels) :
    panel.1 ∈ A.tiles ∧ panel.2.length = panel.1.rows.length ∧
      ∀ row ∈ panel.2, row.length = panel.1.columns.length := by
  rw [panels, ← List.map_uncurry_zip_eq_zipWith] at hp
  obtain ⟨⟨t, run⟩, hrun, rfl⟩ := List.mem_map.1 hp
  obtain ⟨ht, hlen⟩ : t ∈ A.tiles ∧ run.length = t.size := mem_zip_runs (le_of_eq h) hrun
  exact ⟨ht, length_rowsOf .., fun row hrow => length_of_mem_rowsOf hlen hrow⟩

/-- The panels of a regular matrix fit any axes it reaches. -/
theorem Regular.fits (h : A.Regular) (hm : A.rows ≤ m) (hn : A.columns ≤ n)
    {panel : Tile × List (List K)} (hp : panel ∈ A.panels) : Fits m n panel := by
  obtain ⟨ht, hlength, hrow⟩ := h.wellFormed.mem_panels hp
  have hrows := rows_stop_le ht
  have hcolumns := columns_stop_le ht
  exact ⟨⟨(h.nonneg _ ht).1, hrows.trans hm⟩, ⟨(h.nonneg _ ht).2, hcolumns.trans hn⟩, h.solid _ ht,
    hlength, hrow⟩

/-- The record of a sum holds the panels of both matrices. -/
theorem WellFormed.panels_add (hA : A.WellFormed) (B : BlockMatrix K) :
    (A + B).panels = A.panels ++ B.panels := by
  simp only [panels, scalars_add, tiles_add, List.map_append]
  rw [runs_append hA, List.zipWith_append (by simp)]

theorem WellFormed.add {B : BlockMatrix K} (hA : A.WellFormed) (hB : B.WellFormed) :
    (A + B).WellFormed := by
  rw [WellFormed, required, tiles_add, scalars_add, List.map_append, total_append,
    List.length_append, ← hA, ← hB]
  rfl

theorem Solid.add {B : BlockMatrix K} (hA : A.Solid) (hB : B.Solid) : (A + B).Solid :=
  fun t ht => (List.mem_append.1 ht).elim (hA t) (hB t)

theorem Level.add {B : BlockMatrix K} (hA : A.Level) (hB : B.Level) : (A + B).Level :=
  ⟨⟨hA.wellFormed.add hB.wellFormed, fun t ht =>
    (List.mem_append.1 ht).elim (hA.nonneg t) (hB.nonneg t)⟩, fun t ht =>
    (List.mem_append.1 ht).elim (hA.rows_solid t) (hB.rows_solid t)⟩

theorem Regular.add {B : BlockMatrix K} (hA : A.Regular) (hB : B.Regular) : (A + B).Regular :=
  ⟨(hA.level.add hB.level).toAdmissible, hA.solid.add hB.solid⟩

theorem Regular.zero : (0 : BlockMatrix K).Regular := ⟨⟨rfl, by simp⟩, by simp [Solid]⟩

theorem Solid.rows (hs : A.Solid) : ∀ t ∈ A.tiles, t.rows.Solid := fun t ht => (hs t ht).1

/-- The sizes of tiles of solid rows that were moved down. -/
theorem map_size_shiftRows (hs : ∀ t ∈ A.tiles, t.rows.Solid) (k : Int) :
    (A.shiftRows k).tiles.map Tile.size = A.tiles.map Tile.size := by
  rw [tiles_shiftRows, List.map_map]
  exact List.map_congr_left fun t ht => Tile.size_shiftRows (hs t ht) k

theorem WellFormed.shiftRows (hA : A.WellFormed) (hs : ∀ t ∈ A.tiles, t.rows.Solid) (k : Int) :
    (A.shiftRows k).WellFormed := by
  rw [WellFormed, required, map_size_shiftRows hs]
  exact hA

/-- Counting the scalars of a well-formed matrix again changes nothing. -/
theorem WellFormed.recount_eq (h : A.WellFormed) : A.recount = .ok A :=
  if_pos (congrArg ([·]) h.symm)

/-- How far a matrix is moved does not matter to the number of scalars that its tiles own. -/
theorem required_shiftRows (A : BlockMatrix K) (k : Int) :
    required (A.shiftRows k).tiles = required (A.shiftRows 0).tiles := by
  have hsize : ∀ t : Tile, (t.shiftRows k).size = (t.shiftRows 0).size := by
    intro t
    simp only [Tile.size, Tile.rows_shiftRows, Tile.columns_shiftRows, Span.length_toStride,
      Span.length_shift]
  simp only [required, tiles_shiftRows, List.map_map, Function.comp_def, hsize]

/-- A matrix can be moved down exactly if its scalars are as many as its moved tiles own. -/
theorem moveDown_eq_of_wellFormed (h : (A.shiftRows 0).WellFormed) (k : Int) :
    A.moveDown k = .ok (A.shiftRows k) := by
  refine WellFormed.recount_eq ?_
  rw [WellFormed, required_shiftRows]
  exact h

theorem moveDown_eq_error (h : ¬(A.shiftRows 0).WellFormed) (k : Int) :
    A.moveDown k = .error (.tileScalars (required (A.shiftRows 0).tiles) [A.scalars.length]) := by
  rw [moveDown, recount, ofTiles, required_shiftRows, if_neg]
  · rfl
  · exact fun heq => h (List.singleton_inj.1 heq).symm

/-- A well-formed matrix of solid rows can be moved down. -/
theorem WellFormed.moveDown_eq (hA : A.WellFormed) (hs : ∀ t ∈ A.tiles, t.rows.Solid) (k : Int) :
    A.moveDown k = .ok (A.shiftRows k) := moveDown_eq_of_wellFormed (hA.shiftRows hs 0) k

theorem Solid.shiftRows (hs : A.Solid) (k : Int) : (A.shiftRows k).Solid := by
  intro t ht
  obtain ⟨u, hu, rfl⟩ := List.mem_map.1 ht
  exact ⟨Span.solid_toStride _, (hs u hu).2⟩

/-- The panels of a matrix of solid rows that was moved down keep what they hold. -/
theorem panels_shiftRows (hs : ∀ t ∈ A.tiles, t.rows.Solid) (k : Int) :
    (A.shiftRows k).panels = A.panels.map fun panel => (panel.1.shiftRows k, panel.2) := by
  rw [panels, map_size_shiftRows hs, tiles_shiftRows, scalars_shiftRows, List.zipWith_map_left,
    panels, List.map_zipWith, ← List.map_uncurry_zip_eq_zipWith, ← List.map_uncurry_zip_eq_zipWith]
  refine List.map_congr_left fun ⟨t, run⟩ hrun => ?_
  have hrows : (t.shiftRows k).rows.length = t.rows.length := by
    rw [Tile.rows_shiftRows, Span.length_toStride, Span.length_shift]
    exact (hs t (List.of_mem_zip hrun).1).symm
  simp only [Function.uncurry_apply_pair, hrows, Tile.columns_shiftRows]

theorem Level.shiftRows (hA : A.Level) {k : Int} (hk : 0 ≤ k) : (A.shiftRows k).Level := by
  refine ⟨⟨hA.wellFormed.shiftRows hA.rows_solid k, fun t ht => ?_⟩, fun t ht => ?_⟩
  · obtain ⟨u, hu, rfl⟩ := List.mem_map.1 ht
    obtain ⟨⟨hstart, hstop⟩, hcolumns⟩ := hA.nonneg u hu
    exact ⟨⟨Int.add_nonneg hstart hk, Int.add_nonneg hstop hk⟩, hcolumns⟩
  · obtain ⟨u, -, rfl⟩ := List.mem_map.1 ht
    exact Span.solid_toStride _

theorem Regular.shiftRows (hA : A.Regular) {k : Int} (hk : 0 ≤ k) : (A.shiftRows k).Regular :=
  ⟨(hA.level.shiftRows hk).toAdmissible, hA.solid.shiftRows k⟩

theorem Admissible.rows_add {B : BlockMatrix K} (hA : A.Admissible) (hB : B.Admissible) :
    (A + B).rows = max A.rows B.rows := by
  have hstop : ∀ {C : BlockMatrix K}, C.Admissible → ∀ b ∈ C.tiles.map (·.rows.stop), 0 ≤ b := by
    intro C hC b hb
    obtain ⟨t, ht, rfl⟩ := List.mem_map.1 hb
    exact (hC.nonneg t ht).1.2
  rw [rows, tiles_add, List.map_append, getD_max?_append (hstop hA) (hstop hB)]
  rfl

theorem Admissible.columns_add {B : BlockMatrix K} (hA : A.Admissible) (hB : B.Admissible) :
    (A + B).columns = max A.columns B.columns := by
  have hstop : ∀ {C : BlockMatrix K}, C.Admissible →
      ∀ b ∈ C.tiles.map (·.columns.stop), 0 ≤ b := by
    intro C hC b hb
    obtain ⟨t, ht, rfl⟩ := List.mem_map.1 hb
    exact (hC.nonneg t ht).2.2
  rw [columns, tiles_add, List.map_append, getD_max?_append (hstop hA) (hstop hB)]
  rfl

theorem rows_shiftRows (h : A.tiles ≠ []) (k : Int) : (A.shiftRows k).rows = A.rows + k := by
  rw [rows, tiles_shiftRows, List.map_map, rows, ← getD_max?_map_add (by simpa using h),
    List.map_map]
  rfl

theorem rows_shiftRows_zero (A : BlockMatrix K) : (A.shiftRows 0).rows = A.rows := by
  by_cases h : A.tiles = []
  · simp [rows, h]
  · rw [rows_shiftRows h, add_zero]

@[simp] theorem columns_shiftRows (A : BlockMatrix K) (k : Int) :
    (A.shiftRows k).columns = A.columns := by
  rw [columns, tiles_shiftRows, List.map_map, columns]
  rfl

/-- A panel says nothing outside of the positions of its tile. -/
theorem panelEntry_of_notMem [Zero K] {panel : Tile × List (List K)} {i j : Int}
    (h : ¬((panel.1.rows.start ≤ i ∧ i < panel.1.rows.stop) ∧
      panel.1.columns.start ≤ j ∧ j < panel.1.columns.stop)) : panelEntry panel i j = 0 := by
  rw [panelEntry]
  by_cases hi : panel.1.rows.start ≤ i ∧ i < panel.1.rows.stop
  · exact Span.pick_of_notMem (fun hj => h ⟨hi, hj⟩) _ _
  · rw [Span.pick_of_notMem hi, Span.pick_nil]

variable [AddCommMonoid K]

/-- A regular matrix has no entries before its first or behind its last row and column. -/
theorem Regular.entry_eq_zero (h : A.Regular) {i j : Int}
    (hij : i < 0 ∨ A.rows ≤ i ∨ j < 0 ∨ A.columns ≤ j) : A.entry i j = 0 := by
  refine List.sum_eq_zero fun x hx => ?_
  obtain ⟨panel, hp, rfl⟩ := List.mem_map.1 hx
  have hfits : Fits A.rows.toNat A.columns.toNat panel :=
    h.fits (Int.self_le_toNat _) (Int.self_le_toNat _) hp
  have hrows := hfits.rows_on.stop_le
  have hcolumns := hfits.columns_on.stop_le
  have := h.rows_nonneg
  have := h.columns_nonneg
  have := hfits.rows_on.nonneg.1
  have := hfits.columns_on.nonneg.1
  exact panelEntry_of_notMem (by omega)

/-- There are no entries in a column that no tile covers. -/
theorem Solid.entry_eq_zero_of_uncovered (hs : A.Solid) {j : Int}
    (h : ∀ t ∈ A.tiles, j ∉ t.columns.positions) (i : Int) : A.entry i j = 0 := by
  refine List.sum_eq_zero fun x hx => ?_
  obtain ⟨panel, hp, rfl⟩ := List.mem_map.1 hx
  rw [panels, ← List.map_uncurry_zip_eq_zipWith] at hp
  obtain ⟨⟨t, run⟩, hrun, rfl⟩ := List.mem_map.1 hp
  have hmem : t ∈ A.tiles := (List.of_mem_zip hrun).1
  have ht := h t hmem
  rw [(hs t hmem).2.positions_eq, Span.mem_positions] at ht
  exact panelEntry_of_notMem fun hij => ht hij.2

/-- Entries add up. -/
theorem WellFormed.entry_add (hA : A.WellFormed) (B : BlockMatrix K) (i j : Int) :
    (A + B).entry i j = A.entry i j + B.entry i j := by
  rw [entry, hA.panels_add, List.map_append, List.sum_append]
  rfl

/-- The entries of a matrix of solid tiles that was moved down. -/
theorem Solid.entry_shiftRows (hs : A.Solid) (k i j : Int) :
    (A.shiftRows k).entry i j = A.entry (i - k) j := by
  rw [entry, panels_shiftRows hs.rows, List.map_map, entry]
  refine congrArg List.sum (List.map_congr_left fun panel _ => ?_)
  simp only [Function.comp_apply, panelEntry, Tile.rows_shiftRows, Tile.columns_shiftRows,
    Span.toSpan_toStride, Span.pick_shift]

/-- The matrix of entries is the sum of the panels. -/
theorem sum_panelMatrix : (A.panels.map (panelMatrix m n)).sum = A.toMatrix m n := by
  have happly : ∀ (panels : List (Tile × List (List K))) (i : Fin m) (j : Fin n),
      (panels.map (panelMatrix m n)).sum i j =
        (panels.map fun panel => panelEntry panel i j).sum := by
    intro panels i j
    induction panels with
    | nil => rfl
    | cons panel panels ih =>
      rw [List.map_cons, List.sum_cons, Matrix.add_apply, ih]
      rfl
  ext i j
  exact happly A.panels i j

end

/-! ## The three folds -/

section
variable [Zero K] [Add K] [Mul K] {A : BlockMatrix K}

/-- The forward product is a fold from as many zeros as there are rows. -/
theorem Admissible.apply_eq_foldlM (h : A.Admissible) {x : Operand K} {xs : List K}
    (hx : x.resolve A.columns = .ok xs) :
    A.apply x = A.panels.foldlM (applyPanel xs) (List.replicate A.rows.toNat 0) := by
  rw [apply, hx, zeros, if_neg (not_lt.2 h.rows_nonneg)]
  rfl

/-- The adjoint product is a fold from as many zeros as there are columns. -/
theorem Admissible.adjoint_eq_foldlM (h : A.Admissible) {y : Operand K} {ys : List K}
    (hy : y.resolve A.rows = .ok ys) :
    A.adjoint y = A.panels.foldlM (adjointPanel ys) (List.replicate A.columns.toNat 0) := by
  rw [adjoint, hy, zeros, if_neg (not_lt.2 h.columns_nonneg)]
  rfl

end

section
variable [CommSemiring K] {A : BlockMatrix K} {m n : Nat}

/-- The forward product is the product with the matrix of entries. -/
theorem Regular.apply_eq (h : A.Regular) {x : Operand K} {f : Fin n → K}
    (hx : x.resolve A.columns = .ok (List.ofFn f)) (hn : A.columns ≤ n) :
    A.apply x = .ok (List.ofFn (A.toMatrix A.rows.toNat n *ᵥ f)) := by
  have hstep : ∀ panel ∈ A.panels, ∀ M : Matrix (Fin A.rows.toNat) (Fin n) K,
      applyPanel (List.ofFn f) (List.ofFn (M *ᵥ f)) panel =
        .ok (List.ofFn ((M + panelMatrix A.rows.toNat n panel) *ᵥ f)) := by
    intro panel hp M
    rw [(h.fits (Int.self_le_toNat _) hn hp).applyPanel_ofFn, Matrix.add_mulVec]
  have hfold := foldlM_add (fun M => List.ofFn (M *ᵥ f)) _ _ hstep 0
  rw [zero_add, sum_panelMatrix, Matrix.zero_mulVec] at hfold
  rw [h.apply_eq_foldlM hx, replicate_eq_ofFn]
  exact hfold

/-- The adjoint product is the product with the transposed matrix of entries. -/
theorem Regular.adjoint_eq (h : A.Regular) {y : Operand K} {f : Fin m → K}
    (hy : y.resolve A.rows = .ok (List.ofFn f)) (hm : A.rows ≤ m) :
    A.adjoint y = .ok (List.ofFn ((A.toMatrix m A.columns.toNat)ᵀ *ᵥ f)) := by
  have hstep : ∀ panel ∈ A.panels, ∀ M : Matrix (Fin m) (Fin A.columns.toNat) K,
      adjointPanel (List.ofFn f) (List.ofFn (Mᵀ *ᵥ f)) panel =
        .ok (List.ofFn ((M + panelMatrix m A.columns.toNat panel)ᵀ *ᵥ f)) := by
    intro panel hp M
    rw [(h.fits hm (Int.self_le_toNat _) hp).adjointPanel_ofFn, Matrix.transpose_add,
      Matrix.add_mulVec]
  have hfold := foldlM_add (fun M : Matrix (Fin m) (Fin A.columns.toNat) K =>
    List.ofFn (Mᵀ *ᵥ f)) _ _ hstep 0
  rw [zero_add, sum_panelMatrix, Matrix.transpose_zero, Matrix.zero_mulVec] at hfold
  rw [h.adjoint_eq_foldlM hy, replicate_eq_ofFn]
  exact hfold

/-- The dense rows are the rows of the matrix of entries. -/
theorem Regular.denseRows_eq (h : A.Regular) :
    A.denseRows =
      .ok (List.ofFn fun i => List.ofFn (A.toMatrix A.rows.toNat A.columns.toNat i)) := by
  have hrows := h.rows_nonneg
  have hcolumns := h.columns_nonneg
  have hstep : ∀ panel ∈ A.panels, ∀ M : Matrix (Fin A.rows.toNat) (Fin A.columns.toNat) K,
      addPanel A.columns.toNat (List.ofFn fun i => List.ofFn (M i)) panel =
        .ok (List.ofFn fun i =>
          List.ofFn ((M + panelMatrix A.rows.toNat A.columns.toNat panel) i)) := by
    intro panel hp M
    exact (h.fits (Int.self_le_toNat _) (Int.self_le_toNat _) hp).addPanel_ofFn M
  have hfold := foldlM_add (fun M : Matrix (Fin A.rows.toNat) (Fin A.columns.toNat) K =>
    List.ofFn fun i => List.ofFn (M i)) _ _ hstep 0
  rw [zero_add, sum_panelMatrix] at hfold
  rw [denseRows, zeroRows, if_neg (by omega), zeros, if_neg (by omega), replicate_eq_ofFn,
    ← hfold]
  simp only [bind, Except.bind, replicate_eq_ofFn]
  rfl

end

end BlockMatrix

end LeastSquares
