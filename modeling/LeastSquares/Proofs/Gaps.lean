import LeastSquares.Proofs.Entries
import LeastSquares.Proofs.Records

/-!
# Gaps

A tile whose range steps over positions, or runs downwards, has another number of rows or columns of
scalars than lie between its bounds. The constructor takes it, but a product selects the part of the
vector by the bounds, and this part does not fit the scalars. So a matrix multiplies nothing if the
columns of a tile are not solid (`BlockMatrix.Admissible.apply_eq_error`), and its transpose
multiplies nothing if the rows of one are not (`BlockMatrix.Admissible.adjoint_eq_error`). The
linear solver, which begins with a product of each kind, refuses every such matrix
(`LinearSettings.solve_eq_error`).
-/

namespace LeastSquares

variable {α : Type}

/-! ## Refused folds -/

section
variable {β π : Type} {step : β → π → Except Error β} {ps : List π}

/-- What is true of every error of the steps of a checked fold is true of the error of the fold. -/
theorem of_foldlM_error {P : Error → Prop} (h : ∀ p ∈ ps, ∀ b e, step b p = .error e → P e) {b : β}
    {e : Error} (hfold : ps.foldlM step b = .error e) : P e := by
  induction ps generalizing b with
  | nil => cases hfold
  | cons p ps ih =>
    rw [List.foldlM_cons] at hfold
    cases hstep : step b p with
    | error e₁ =>
      rw [hstep] at hfold
      cases hfold
      exact h p (List.mem_cons_self ..) b e hstep
    | ok b₁ =>
      rw [hstep] at hfold
      exact ih (fun q hq => h q (List.mem_cons_of_mem _ hq)) hfold

/-- A checked fold is refused if one of its steps is refused whatever comes before. -/
theorem exists_foldlM_error (h : ∃ p ∈ ps, ∀ b b', step b p ≠ .ok b') (b : β) :
    ∃ e, ps.foldlM step b = .error e := by
  cases hfold : ps.foldlM step b with
  | error e => exact ⟨e, rfl⟩
  | ok b' =>
    obtain ⟨p, hp, hrefused⟩ := h
    obtain ⟨before, after, rfl⟩ := List.append_of_mem hp
    rw [List.foldlM_append] at hfold
    obtain ⟨b₁, -, hfold⟩ := bind_eq_ok.1 hfold
    obtain ⟨b₂, hstep, -⟩ := bind_eq_ok.1 hfold
    exact absurd hstep (hrefused b₁ b₂)

/-- So where there is one reason to refuse a step, it is the reason to refuse the fold. -/
theorem foldlM_eq_error {e : Error} (honly : ∀ p ∈ ps, ∀ b e', step b p = .error e' → e' = e)
    (h : ∃ p ∈ ps, ∀ b b', step b p ≠ .ok b') (b : β) : ps.foldlM step b = .error e := by
  obtain ⟨e', hfold⟩ := exists_foldlM_error h b
  rw [hfold, of_foldlM_error (P := (· = e)) honly hfold]

end

/-- Values are accumulated unless their number does not fit. -/
theorem Span.eq_of_accumulate_error [Add α] {s : Span} {values xs : List α} {e : Error}
    (h : s.accumulate values xs = .error e) : e = .lengthMismatch := by
  unfold accumulate update at h
  cases hstretch : stretch (s.slice xs).length values with
  | ok vs =>
    simp only [hstretch] at h
    cases h
  | error e' =>
    simp only [hstretch] at h
    cases h
    unfold stretch at hstretch
    split at hstretch
    · cases hstretch
    · split at hstretch <;> cases hstretch
      rfl

/-! ## Operands -/

namespace Operand

variable [Zero α] [Add α] {required : Int} {xs : List α}

/-- A list is an operand of a matrix it is long enough for. -/
theorem resolve_ofList (h : required ≤ xs.length) :
    (dense (.ofList xs)).resolve required = .ok xs := by
  have h' : ¬(xs.length : Int) < required := by omega
  simp [resolve, h']

/-- An operand is as long as it has to be. -/
theorem le_length_of_resolve {x : Operand α} (h : x.resolve required = .ok xs) :
    required ≤ xs.length := by
  cases x with
  | dense t =>
    rw [resolve] at h
    split at h
    · rename_i n hshape
      split at h
      · cases h
      · cases h
        rw [Tensor.length_data_of_shape hshape]
        omega
    · cases h
  | sparse v =>
    rw [BlockVector.length_dense h]
    exact le_max_left _ _

end Operand

/-! ## Products -/

namespace BlockMatrix

variable {A : BlockMatrix α}

/-- There is a panel for every tile. -/
theorem exists_panel {t : Tile} (ht : t ∈ A.tiles) : ∃ panel ∈ A.panels, panel.1 = t := by
  have hmap : A.panels.map Prod.fst = A.tiles := by
    rw [panels, ← List.map_uncurry_zip_eq_zipWith, List.map_map]
    exact List.map_fst_zip (by simp)
  rwa [← hmap, List.mem_map] at ht

variable [Zero α] [Add α] [Mul α]

/-- A panel adds its product unless a number of entries does not fit. -/
theorem eq_of_applyPanel_error {x acc : List α} {panel : Tile × List (List α)} {e : Error}
    (h : applyPanel x acc panel = .error e) : e = .lengthMismatch := by
  simp only [applyPanel] at h
  split at h
  · exact Span.eq_of_accumulate_error h
  · exact (Except.error.inj h).symm

theorem eq_of_adjointPanel_error {y acc : List α} {panel : Tile × List (List α)} {e : Error}
    (h : adjointPanel y acc panel = .error e) : e = .lengthMismatch := by
  simp only [adjointPanel] at h
  split at h
  · exact Span.eq_of_accumulate_error h
  · exact (Except.error.inj h).symm

/-- A product with a vector that is long enough is as long as the matrix, or it is refused since a
number of entries does not fit. -/
theorem Admissible.apply_cases (h : A.Admissible) {x : Operand α} {xs : List α}
    (hx : x.resolve A.columns = .ok xs) :
    A.apply x = .error .lengthMismatch ∨
      ∃ ys, A.apply x = .ok ys ∧ ys.length = A.rows.toNat := by
  rw [h.apply_eq_foldlM hx]
  cases hfold : A.panels.foldlM (applyPanel xs) (List.replicate A.rows.toNat 0) with
  | error e =>
    rw [of_foldlM_error (P := (· = .lengthMismatch))
      (fun _ _ _ _ herror => eq_of_applyPanel_error herror) hfold]
    exact .inl rfl
  | ok ys =>
    refine .inr ⟨ys, rfl, ?_⟩
    refine of_foldlM (P := fun acc : List α => acc.length = A.rows.toNat) ?_
      List.length_replicate hfold
    intro panel _ acc acc' hacc hstep
    simp only [applyPanel] at hstep
    split at hstep
    · exact (Span.length_accumulate hstep).trans hacc
    · cases hstep

/-- A matrix multiplies nothing if the columns of a tile are not solid. -/
theorem Admissible.apply_eq_error (h : A.Admissible) {x : Operand α} {xs : List α}
    (hx : x.resolve A.columns = .ok xs) {t : Tile} (ht : t ∈ A.tiles) (hgap : ¬t.columns.Solid) :
    A.apply x = .error .lengthMismatch := by
  obtain ⟨panel, hp, rfl⟩ := exists_panel ht
  have hon : panel.1.columns.On xs.length :=
    ⟨(h.nonneg _ ht).2, (columns_stop_le ht).trans (Operand.le_length_of_resolve hx)⟩
  have hrefused : ∀ acc acc', applyPanel xs acc panel ≠ .ok acc' := by
    intro acc acc' hstep
    have hpart : ¬(panel.1.columns.slice xs).length = panel.1.columns.length := by
      rw [hon.length_slice rfl]
      exact fun heq => hgap heq.symm
    simp only [applyPanel, if_neg hpart] at hstep
    cases hstep
  rw [h.apply_eq_foldlM hx]
  refine foldlM_eq_error (fun _ _ _ _ herror => eq_of_applyPanel_error herror) ?_ _
  exact ⟨panel, hp, hrefused⟩

/-- The transposed matrix multiplies nothing if the rows of a tile are not solid. -/
theorem Admissible.adjoint_eq_error (h : A.Admissible) {y : Operand α} {ys : List α}
    (hy : y.resolve A.rows = .ok ys) {t : Tile} (ht : t ∈ A.tiles) (hgap : ¬t.rows.Solid) :
    A.adjoint y = .error .lengthMismatch := by
  obtain ⟨panel, hp, rfl⟩ := exists_panel ht
  have hon : panel.1.rows.On ys.length :=
    ⟨(h.nonneg _ ht).1, (rows_stop_le ht).trans (Operand.le_length_of_resolve hy)⟩
  have hrefused : ∀ acc acc', adjointPanel ys acc panel ≠ .ok acc' := by
    intro acc acc' hstep
    have hpart : ¬(panel.1.rows.slice ys).length = panel.1.rows.length := by
      rw [hon.length_slice rfl]
      exact fun heq => hgap heq.symm
    simp only [adjointPanel, if_neg hpart] at hstep
    cases hstep
  rw [h.adjoint_eq_foldlM hy]
  refine foldlM_eq_error (fun _ _ _ _ herror => eq_of_adjointPanel_error herror) ?_ _
  exact ⟨panel, hp, hrefused⟩

end BlockMatrix

/-! ## The linear solver -/

section
variable [Zero α] [Add α] [Sub α] [Mul α] {A : BlockMatrix α} {f x : List α}

/-- The first two products of a run of the solver find the gaps of a matrix. -/
theorem LinearSystem.start_eq_error (hA : A.Admissible) (hgap : ¬A.Solid)
    (hrows : A.rows ≤ f.length) (hx : A.columns ≤ x.length) :
    (⟨A, f.length, x.length⟩ : LinearSystem α).start (.ofList f) (.ofList x) =
      .error .lengthMismatch := by
  obtain ⟨t, ht, hsolid⟩ : ∃ t ∈ A.tiles, ¬t.Solid := by simpa [BlockMatrix.Solid] using hgap
  rw [start, forward]
  rcases hA.apply_cases (Operand.resolve_ofList hx) with happly | ⟨product, happly, hlen⟩
  · rw [happly]
    rfl
  · obtain ⟨padded, hpad, hpadded⟩ := Dense.exists_pad (show product.length ≤ f.length by omega)
    have hr := Tensor.combine_ofList (f := (· - · : α → α → α)) hpadded.symm
    have hreach : A.rows ≤ (List.zipWith (· - ·) f padded).length := by
      rwa [List.length_zipWith, hpadded, Nat.min_self]
    -- the columns fitted, so the gap is in the rows
    have hgap : ¬t.rows.Solid := by
      refine fun hrows => hsolid ⟨hrows, Decidable.byContradiction fun hcolumns => ?_⟩
      cases happly.symm.trans (hA.apply_eq_error (Operand.resolve_ofList hx) ht hcolumns)
    simp only [happly, hpad, hr, adjoint, bind, Except.bind,
      hA.adjoint_eq_error (Operand.resolve_ofList hreach) ht hgap]

/-- The solver refuses a matrix with gaps where the lengths fit. -/
theorem LinearSettings.solve_eq_error [Div α] [LT α] [DecidableLT α] [BEq α] (hA : A.Admissible)
    (hgap : ¬A.Solid) {b : Operand α} (hb : b.rightHandSide A.rows = .ok (.ofList f))
    (hrows : A.rows ≤ f.length) (hx : A.columns ≤ x.length) (settings : LinearSettings α) :
    settings.solve A b (.ofList x) = .error .lengthMismatch := by
  simp only [solve_eq_bind, hb, Tensor.leading, Tensor.shape_ofList, bind, Except.bind,
    LinearSystem.start_eq_error hA hgap hrows hx]

/-- A solver that refuses a matrix with gaps is as before its first run. -/
theorem LinearSolver.solve_eq_error [Div α] [LT α] [DecidableLT α] [BEq α] (hA : A.Admissible)
    (hgap : ¬A.Solid) {b : Operand α} (hb : b.rightHandSide A.rows = .ok (.ofList f))
    (hrows : A.rows ≤ f.length) (hx : A.columns ≤ x.length) (solver : LinearSolver α) :
    solver.solve A b (.ofList x) = (.error .lengthMismatch, .fresh solver.settings) := by
  rw [solve_eq, solver.settings.solve_eq_error hA hgap hb hrows hx]

end

end LeastSquares
