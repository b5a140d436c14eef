import LeastSquares.Assignment
import LeastSquares.Proofs.Collation

/-!
# Vectors and matrices that can be made

The constructors of block vectors and block matrices count the scalars they are given. Most
operations put their results together from the parts of their operands, and a later slice of the
buffer is only right if the counts still agree. They do for everything that can be made
(`BlockVector.Made`, `BlockMatrix.Made`): such a vector or matrix is well formed, and an operation
hands on every block with the scalars it owns.

Collation cuts the buffers of all rows by the blocks of the first one. The rows are compared by the
positions of their blocks, and blocks of the same positions have the same length, so each row is cut
where its own blocks begin (`BlockMatrix.forall₂_panels_collate`). It follows that the constructor
of matrices accepts what an operation on matrices makes (`BlockMatrix.recount`), and that its
refusal never comes from inside of one (`BlockMatrix.made_counts`).
-/

namespace LeastSquares

variable {K : Type}

/-! ## Vectors -/

namespace BlockVector

section
variable [One K] [Neg K] [Add K] [Sub K] [Mul K]

/-- The vectors that the constructors and operations make. -/
inductive Made : BlockVector K → Prop where
  | ofBlock {scalars : List K} {block : Span} {v : BlockVector K}
      (h : ofBlock scalars block = .ok v) : Made v
  | ofList (scalars : List K) : Made (ofList scalars)
  | embed {s : Assignment K} {key : Int} {sensitivity : List K} {v : BlockVector K}
      (h : s.embed key sensitivity = .ok v) : Made v
  | zero : Made 0
  | add {v w : BlockVector K} (hv : Made v) (hw : Made w) : Made (v + w)
  | sub {v w : BlockVector K} (hv : Made v) (hw : Made w) : Made (v - w)
  | neg {v : BlockVector K} (hv : Made v) : Made (-v)
  | scale {v : BlockVector K} (hv : Made v) (c : K) : Made (v.scale c)
  | raise {v : BlockVector K} (hv : Made v) (c : K) : Made (v.raise c)
  | lower {v : BlockVector K} (hv : Made v) (c : K) : Made (v.lower c)

/-- The blocks of a vector that can be made own exactly its scalars. -/
theorem Made.wellFormed {v : BlockVector K} (h : v.Made) : v.WellFormed := by
  induction h with
  | ofBlock h => exact (of_ofBlock h).1
  | ofList scalars => exact (regular_ofList scalars).wellFormed
  | embed h =>
    obtain ⟨_, -, hv⟩ := bind_eq_ok.1 h
    exact (of_ofBlock hv).1
  | zero => rfl
  | add _ _ ihv ihw => exact ihv.add ihw
  | sub _ _ ihv ihw => exact ihv.add (ihw.map _)
  | neg _ ih | scale _ _ ih | raise _ _ ih | lower _ _ ih => exact ih.map _

end

/-- The record of a difference holds the pieces of the first vector, and those of the second with
negated scalars. -/
theorem WellFormed.pieces_sub [Neg K] {v : BlockVector K} (hv : v.WellFormed)
    (w : BlockVector K) :
    (v - w).pieces = v.pieces ++ w.pieces.map fun piece => (piece.1, piece.2.map (-·)) := by
  rw [sub_eq_add_map, hv.pieces_add, pieces_map]

end BlockVector

/-! ## Matrices -/

/-- A tile whose rows and columns have step one. -/
def Tile.Contiguous (t : Tile) : Prop := t.rows.Contiguous ∧ t.columns.Contiguous

instance (t : Tile) : Decidable t.Contiguous := inferInstanceAs (Decidable (_ ∧ _))

theorem Tile.Contiguous.solid {t : Tile} (h : t.Contiguous) : t.Solid := ⟨h.1.solid, h.2.solid⟩

namespace BlockMatrix

/-- All tiles have rows and columns of step one. -/
def Contiguous (A : BlockMatrix K) : Prop := ∀ t ∈ A.tiles, t.Contiguous

instance (A : BlockMatrix K) : Decidable A.Contiguous :=
  inferInstanceAs (Decidable (∀ t ∈ A.tiles, t.Contiguous))

theorem Contiguous.solid {A : BlockMatrix K} (h : A.Contiguous) : A.Solid :=
  fun t ht => (h t ht).solid

section
variable [One K] [Neg K] [Add K] [Sub K] [Mul K]

/-- The matrices that the constructors and operations make of contiguous tiles. -/
inductive Made : BlockMatrix K → Prop where
  | ofTiles {scalars : Tensor K} {tiles : List Tile} {A : BlockMatrix K}
      (hsteps : ∀ t ∈ tiles, t.Contiguous) (h : ofTiles scalars tiles = .ok A) : Made A
  | ofDense {block : Tensor K} {firstRow firstColumn : Int} {A : BlockMatrix K}
      (h : ofDense block firstRow firstColumn = .ok A) : Made A
  | collate {rows : List (BlockVector K)} {A : BlockMatrix K} (hrows : ∀ row ∈ rows, row.Made)
      (h : collate rows = .ok A) : Made A
  | zero : Made 0
  | add {A B : BlockMatrix K} (hA : Made A) (hB : Made B) : Made (A + B)
  | moveDown {A B : BlockMatrix K} {offset : Int} (hA : Made A) (h : A.moveDown offset = .ok B) :
      Made B

end

/-- A dense block is a matrix of one tile, which owns its scalars. -/
theorem wellFormed_ofDense {block : Tensor K} {firstRow firstColumn : Int} {A : BlockMatrix K}
    (h : ofDense block firstRow firstColumn = .ok A) : A.WellFormed := by
  unfold ofDense at h
  split at h
  · rename_i r c hshape
    cases h
    have hlength := Tensor.length_data_of_axes (Tensor.matrix?_eq_some.1 hshape)
    simp [WellFormed, required, Tile.size, hlength]
  · cases h

theorem contiguous_ofDense {block : Tensor K} {firstRow firstColumn : Int} {A : BlockMatrix K}
    (h : ofDense block firstRow firstColumn = .ok A) : A.Contiguous := by
  unfold ofDense at h
  split at h <;> cases h
  intro t ht
  rw [List.mem_singleton.1 ht]
  exact ⟨rfl, rfl⟩

/-- Collated rows make a well-formed matrix. -/
theorem wellFormed_of_collate {rows : List (BlockVector K)} {A : BlockMatrix K}
    (h : collate rows = .ok A) (hrows : ∀ row ∈ rows, row.WellFormed) : A.WellFormed := by
  cases rows with
  | nil =>
    cases h
    rfl
  | cons first rest => exact (wellFormed_collate h hrows).1

theorem contiguous_of_collate {rows : List (BlockVector K)} {A : BlockMatrix K}
    (h : collate rows = .ok A) : A.Contiguous := by
  cases rows with
  | nil =>
    cases h
    exact fun _ ht => absurd ht List.not_mem_nil
  | cons first rest =>
    obtain ⟨-, -, rfl⟩ := collate_eq_ok.1 h
    intro t ht
    obtain ⟨block, -, rfl⟩ := List.mem_map.1 ht
    exact ⟨rfl, rfl⟩

theorem Contiguous.shiftRows {A : BlockMatrix K} (h : A.Contiguous) (offset : Int) :
    (A.shiftRows offset).Contiguous := by
  intro t ht
  obtain ⟨u, hu, rfl⟩ := List.mem_map.1 ht
  exact ⟨rfl, (h u hu).2⟩

/-- The tiles of a matrix that can be made are contiguous. -/
theorem Made.contiguous [One K] [Neg K] [Add K] [Sub K] [Mul K] {A : BlockMatrix K}
    (h : A.Made) : A.Contiguous := by
  induction h with
  | ofTiles hsteps h => rwa [Contiguous, (wellFormed_of_ofTiles h).1]
  | ofDense h => exact contiguous_ofDense h
  | collate _ h => exact contiguous_of_collate h
  | zero => exact fun _ ht => absurd ht List.not_mem_nil
  | add _ _ ihA ihB => exact fun t ht => (List.mem_append.1 ht).elim (ihA t) (ihB t)
  | moveDown _ h ih =>
    rw [Contiguous, (wellFormed_of_ofTiles h).1]
    exact ih.shiftRows _

/-- The tiles of a matrix that can be made own exactly its scalars. -/
theorem Made.wellFormed [One K] [Neg K] [Add K] [Sub K] [Mul K] {A : BlockMatrix K}
    (h : A.Made) : A.WellFormed := by
  induction h with
  | ofTiles _ h | moveDown _ h => exact (wellFormed_of_ofTiles h).2
  | ofDense h => exact wellFormed_ofDense h
  | collate hrows h => exact wellFormed_of_collate h fun row hrow => (hrows row hrow).wellFormed
  | zero => rfl
  | add _ _ ihA ihB => exact ihA.add ihB

/-! ## Collation block by block -/

/-- Regrouped from rows to blocks, the scalars of a row are those of its own blocks, in blocks that
cover the same positions. -/
theorem forall₂_panels_collateScalars {blocks layout : List Span}
    (halike : List.Forall₂ (fun s t => s.alike t = true) blocks layout)
    {buffers : List (List K)}
    (h : ∀ buffer ∈ buffers, total (layout.map Span.length) = buffer.length) {i : Nat}
    (hi : i < buffers.length) :
    List.Forall₂ (fun (panel : Tile × List (List K)) (piece : Span × List K) =>
        panel.1.rows = Span.ofLength 0 buffers.length ∧
        panel.1.columns.positions = piece.1.positions ∧ panel.2[i]? = some piece.2)
      (⟨collateScalars (layout.map Span.length) buffers, layout.map fun block : Span =>
        ⟨Span.ofLength 0 buffers.length, block⟩⟩ : BlockMatrix K).panels
      (⟨buffers[i], blocks⟩ : BlockVector K).pieces := by
  induction halike generalizing buffers with
  | nil => exact .nil
  | @cons s block ss layout hs _ ih =>
    obtain ⟨hparts, hrest⟩ := split_buffers h
    have hih := ih hrest (by simpa using hi)
    simp only [List.length_map, List.getElem_map, ← Span.length_eq_of_alike hs] at hih
    simp only [List.map_cons, collateScalars]
    rw [panels_cons (length_flatten_parts hparts), Span.length_toStride, Span.length_toStride,
      Span.length_ofLength, rowsOf_flatten (List.length_map _) hparts]
    refine .cons ⟨rfl, ?_, ?_⟩ ?_
    · rw [Span.positions_toStride]
      exact (Span.alike_iff.1 hs).symm
    · simp [hi, Span.length_eq_of_alike hs]
    · rw [← Span.length_eq_of_alike hs]
      exact hih

/-- Collation cuts every row where its own blocks begin: the row is found, block by block, in the
panels, whose tiles cover the positions of its blocks. -/
theorem forall₂_panels_collate {rows : List (BlockVector K)} {A : BlockMatrix K}
    (h : collate rows = .ok A) (hrows : ∀ row ∈ rows, row.WellFormed) {i : Nat}
    (hi : i < rows.length) :
    List.Forall₂ (fun (panel : Tile × List (List K)) (piece : Span × List K) =>
        panel.1.rows = Span.ofLength 0 rows.length ∧
        panel.1.columns.positions = piece.1.positions ∧ panel.2[i]? = some piece.2)
      A.panels rows[i].pieces := by
  cases rows with
  | nil => cases hi
  | cons first rest =>
    obtain ⟨hlayout, -, rfl⟩ := collate_eq_ok.1 h
    have halike := forall₂_of_sameLayout (hlayout _ (List.getElem_mem hi))
    have hpanels := forall₂_panels_collateScalars halike (total_eq_of_sameLayout hlayout hrows)
      (i := i) (by simpa using hi)
    simp only [List.length_map, List.getElem_map] at hpanels
    exact hpanels

/-! ## Counting again -/

/-- What is well formed wherever it is made is not refused by counting again. -/
theorem bind_recount {x : Except Error (BlockMatrix K)} (h : ∀ A, x = .ok A → A.WellFormed) :
    x >>= recount = x := by
  cases x with
  | error e => rfl
  | ok A => exact (h A rfl).recount_eq

/-- A dense block is refused only for its shape. -/
theorem error_of_ofDense {block : Tensor K} {firstRow firstColumn : Int} {e : Error}
    (h : ofDense block firstRow firstColumn = .error e) : e = .notMatrix block.shape := by
  unfold ofDense at h
  split at h <;> cases h
  rfl

/-- Rows are refused only for their layout. -/
theorem error_of_collate {rows : List (BlockVector K)} {e : Error}
    (h : collate rows = .error e) : e = .rowLayout ∨ e = .nothingToCollate := by
  unfold collate at h
  split at h
  · cases h
  · dsimp only at h
    split at h
    · cases h
      exact .inl rfl
    · split at h <;> cases h
      exact .inr rfl

/-! ## What is counted and what is handed on -/

section
variable [One K] [Neg K] [Add K] [Sub K] [Mul K]

/-- A vector that can be made stores the scalars that its blocks ask for. -/
theorem counts_vector {v : BlockVector K} (hv : v.Made) :
    total (v.blocks.map Span.length) = v.scalars.length ∧
      ∀ piece ∈ v.pieces, piece.1 ∈ v.blocks ∧ piece.2.length = piece.1.length :=
  ⟨hv.wellFormed, fun _ => hv.wellFormed.mem_pieces⟩

/-- A matrix that can be made stores the scalars that its tiles ask for. -/
theorem counts_matrix {A : BlockMatrix K} (hA : A.Made) :
    total (A.tiles.map Tile.size) = A.scalars.length ∧
      ∀ panel ∈ A.panels, panel.1 ∈ A.tiles ∧ panel.2.length = panel.1.rows.length ∧
        ∀ row ∈ panel.2, row.length = panel.1.columns.length :=
  ⟨hA.wellFormed, fun _ => hA.wellFormed.mem_panels⟩

/-- A sum and a difference of vectors hand on the pieces of both. -/
theorem pieces_add_sub {v : BlockVector K} (hv : v.Made) (w : BlockVector K) :
    (v + w).pieces = v.pieces ++ w.pieces ∧
      (v - w).pieces = v.pieces ++ w.pieces.map fun piece => (piece.1, piece.2.map (-·)) :=
  ⟨hv.wellFormed.pieces_add w, hv.wellFormed.pieces_sub w⟩

/-- Arithmetic with a number hands on every block. -/
theorem pieces_scale_raise_lower (v : BlockVector K) (c : K) :
    (v.scale c).pieces = v.pieces.map (fun piece => (piece.1, piece.2.map (· * c))) ∧
      (v.raise c).pieces = v.pieces.map (fun piece => (piece.1, piece.2.map (· + c))) ∧
      (v.lower c).pieces = v.pieces.map (fun piece => (piece.1, piece.2.map (· - c))) ∧
      -v = v.scale (-1) :=
  ⟨v.pieces_map _, v.pieces_map _, v.pieces_map _, rfl⟩

/-- A sum of matrices hands on the panels of both. -/
theorem Made.recount_add {A B : BlockMatrix K} (hA : A.Made) (hB : B.Made) :
    (A + B).panels = A.panels ++ B.panels ∧ (A + B).recount = .ok (A + B) :=
  ⟨hA.wellFormed.panels_add B, (hA.wellFormed.add hB.wellFormed).recount_eq⟩

/-- A matrix that is moved down keeps what its panels hold, and the length of their rows. -/
theorem Made.moveDown_eq {A : BlockMatrix K} (hA : A.Made) (offset : Int) :
    (A.shiftRows offset).panels = A.panels.map (fun panel => (panel.1.shiftRows offset, panel.2)) ∧
      (∀ t ∈ A.tiles, (t.shiftRows offset).rows.length = t.rows.length ∧
        (t.shiftRows offset).columns = t.columns) ∧
      A.moveDown offset = .ok (A.shiftRows offset) := by
  have hrows := hA.contiguous.solid.rows
  refine ⟨panels_shiftRows hrows offset, fun t ht => ⟨?_, rfl⟩,
    hA.wellFormed.moveDown_eq hrows offset⟩
  rw [Tile.rows_shiftRows, Span.length_toStride, Span.length_shift]
  exact (hrows t ht).symm

omit [One K] [Neg K] [Add K] [Sub K] [Mul K] in
/-- The scalars of a dense block are those that its tile asks for. -/
theorem recount_ofDense (block : Tensor K) (firstRow firstColumn : Int) :
    ofDense block firstRow firstColumn >>= recount = ofDense block firstRow firstColumn ∧
      ∀ e, ofDense block firstRow firstColumn = .error e → e = .notMatrix block.shape :=
  ⟨bind_recount fun _ => wellFormed_ofDense, fun _ => error_of_ofDense⟩

/-- The scalars of collated rows are those that the tiles ask for. -/
theorem recount_collate {rows : List (BlockVector K)} (hrows : ∀ row ∈ rows, row.Made) :
    collate rows >>= recount = collate rows ∧
      (∀ e, collate rows = .error e → e = .rowLayout ∨ e = .nothingToCollate) ∧
      ∀ A, collate rows = .ok A → ∀ (i : Nat) (hi : i < rows.length),
        List.Forall₂ (fun (panel : Tile × List (List K)) (piece : Span × List K) =>
            panel.1.rows = Span.ofLength 0 rows.length ∧
            panel.1.columns.positions = piece.1.positions ∧ panel.2[i]? = some piece.2)
          A.panels rows[i].pieces := by
  have hwf : ∀ row ∈ rows, row.WellFormed := fun row hrow => (hrows row hrow).wellFormed
  exact ⟨bind_recount fun _ hA => wellFormed_of_collate hA hwf, fun _ => error_of_collate,
    fun _ hA _ hi => forall₂_panels_collate hA hwf hi⟩

end

/-- Whatever is made of vectors and matrices stores the scalars that its blocks ask for. Operations
on vectors and matrices hand on every block with the scalars it owns, collation finds every row in
the panels of its blocks, and the constructor of matrices, which counts the scalars again, accepts
what an operation on matrices makes: a dense block is refused only for its shape, rows only for
their layout. -/
theorem made_counts [One K] [Neg K] [Add K] [Sub K] [Mul K] :
    (∀ v : BlockVector K, v.Made → total (v.blocks.map Span.length) = v.scalars.length ∧
      ∀ piece ∈ v.pieces, piece.1 ∈ v.blocks ∧ piece.2.length = piece.1.length) ∧
    (∀ A : BlockMatrix K, A.Made → total (A.tiles.map Tile.size) = A.scalars.length ∧
      ∀ panel ∈ A.panels, panel.1 ∈ A.tiles ∧ panel.2.length = panel.1.rows.length ∧
        ∀ row ∈ panel.2, row.length = panel.1.columns.length) ∧
    (∀ v w : BlockVector K, v.Made → (v + w).pieces = v.pieces ++ w.pieces ∧
      (v - w).pieces = v.pieces ++ w.pieces.map fun piece => (piece.1, piece.2.map (-·))) ∧
    (∀ (v : BlockVector K) (c : K),
      (v.scale c).pieces = v.pieces.map (fun piece => (piece.1, piece.2.map (· * c))) ∧
      (v.raise c).pieces = v.pieces.map (fun piece => (piece.1, piece.2.map (· + c))) ∧
      (v.lower c).pieces = v.pieces.map (fun piece => (piece.1, piece.2.map (· - c))) ∧
      -v = v.scale (-1)) ∧
    (∀ A B : BlockMatrix K, A.Made → B.Made → (A + B).panels = A.panels ++ B.panels ∧
      (A + B).recount = .ok (A + B)) ∧
    (∀ (A : BlockMatrix K) (offset : Int), A.Made →
      (A.shiftRows offset).panels =
        A.panels.map (fun panel => (panel.1.shiftRows offset, panel.2)) ∧
      (∀ t ∈ A.tiles, (t.shiftRows offset).rows.length = t.rows.length ∧
        (t.shiftRows offset).columns = t.columns) ∧
      A.moveDown offset = .ok (A.shiftRows offset)) ∧
    (∀ (block : Tensor K) (firstRow firstColumn : Int),
      ofDense block firstRow firstColumn >>= recount = ofDense block firstRow firstColumn ∧
      ∀ e, ofDense block firstRow firstColumn = .error e → e = .notMatrix block.shape) ∧
    (∀ rows : List (BlockVector K), (∀ row ∈ rows, row.Made) →
      collate rows >>= recount = collate rows ∧
      (∀ e, collate rows = .error e → e = .rowLayout ∨ e = .nothingToCollate) ∧
      ∀ A, collate rows = .ok A → ∀ (i : Nat) (hi : i < rows.length),
        List.Forall₂ (fun (panel : Tile × List (List K)) (piece : Span × List K) =>
            panel.1.rows = Span.ofLength 0 rows.length ∧
            panel.1.columns.positions = piece.1.positions ∧ panel.2[i]? = some piece.2)
          A.panels rows[i].pieces) ∧
    (0 : BlockMatrix K).recount = .ok 0 :=
  ⟨fun _ => counts_vector, fun _ => counts_matrix, fun _ w hv => pieces_add_sub hv w,
    pieces_scale_raise_lower, fun _ _ hA hB => hA.recount_add hB,
    fun _ offset hA => hA.moveDown_eq offset, recount_ofDense, fun _ => recount_collate, rfl⟩

/-- Two rows whose second blocks are empty at different places, collated and moved to negative rows
behind a dense block. -/
theorem made_counts_emptyBlocks :
    let v : BlockVector ℤ := ⟨[1, 2], [⟨0, 2⟩, ⟨5, 3⟩]⟩
    let w : BlockVector ℤ := ⟨[2, 3], [⟨0, 2⟩, ⟨7, 7⟩]⟩
    let A : BlockMatrix ℤ := ⟨[1, 2, 2, 3], [.ofBounds 0 2 0 2, .ofBounds 0 2 5 3]⟩
    let B : BlockMatrix ℤ := ⟨[9], [.ofBounds 4 5 1 2]⟩
    v.Made ∧ w.Made ∧ A.Made ∧ B.Made ∧ collate [v, w] = .ok A ∧
      collate [v, w] >>= recount = collate [v, w] ∧
      (B + A).moveDown (-3) = .ok ((B + A).shiftRows (-3)) ∧
      ((B + A).shiftRows (-3)).tiles =
        [.ofBounds 1 2 1 2, .ofBounds (-3) (-1) 0 2, .ofBounds (-3) (-1) 5 3] := by
  intro v w A B
  have hempty : ∀ block : Span, block.length = 0 → (⟨[], [block]⟩ : BlockVector ℤ).Made := by
    intro block hblock
    have hof : BlockVector.ofBlock [] block = .ok (⟨[], [block]⟩ : BlockVector ℤ) := if_pos hblock
    exact .ofBlock hof
  have hfirst : (⟨[1, 2], [⟨0, 2⟩]⟩ : BlockVector ℤ).Made := .ofList [1, 2]
  have hv : v.Made := hfirst.add (hempty ⟨5, 3⟩ rfl)
  have hw : w.Made := (hfirst.sub (hempty ⟨7, 7⟩ rfl)).raise 1
  have hrows : ∀ row ∈ [v, w], row.Made := by
    intro row hrow
    rcases List.mem_pair.1 hrow with rfl | rfl
    · exact hv
    · exact hw
  have hcollate : collate [v, w] = .ok A := rfl
  have hA : A.Made := .collate hrows hcollate
  have hdense : ofDense (⟨[1, 1], [9], rfl⟩ : Tensor ℤ) 4 1 = .ok B := rfl
  have hB : B.Made := .ofDense hdense
  obtain ⟨-, -, -, -, -, hshift, -, hrecount, -⟩ := made_counts (K := ℤ)
  exact ⟨hv, hw, hA, hB, hcollate, (hrecount _ hrows).1, (hshift _ (-3) (hB.add hA)).2.2, rfl⟩

end BlockMatrix

end LeastSquares
