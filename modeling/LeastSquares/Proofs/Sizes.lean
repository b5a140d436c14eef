import LeastSquares.Proofs.NormalEquations
import LeastSquares.Proofs.Stretching

/-!
# Sizes

Whether products and runs of the linear solver are refused depends on lengths alone, so what is
proved here holds in any arithmetic, floating point included: no law of arithmetic is used. A
regular block vector is materialized to every length that its dimension does not exceed
(`BlockVector.Regular.exists_dense`), and a regular matrix multiplies every operand that is long
enough (`BlockMatrix.Regular.exists_apply`, `BlockMatrix.Regular.exists_adjoint`).

So on axes that hold a regular matrix (`LinearSystem.Holds`) every step of the solver is taken, and
it keeps the lengths of the vectors (`LinearSystem.Sized`). Each step divides twice, and none of
these divisions is by zero (`LinearSystem.Divides`). The main statement,
`LinearSettings.exists_solve`, says this of whole runs.
-/

namespace LeastSquares

variable {α : Type}

/-! ## Block vectors and matrices -/

/-- Values for every position of a span on an axis are accumulated on any list of the axis. -/
theorem Span.On.exists_accumulate [Add α] {s : Span} {n : Nat} (hs : s.On n) {values xs : List α}
    (hv : values.length = s.length) (hx : xs.length = n) :
    ∃ ys, s.accumulate values xs = .ok ys ∧ ys.length = n := by
  have hstretch : stretch (s.slice xs).length values = .ok values := by
    rw [hs.length_slice hx, ← hv]
    exact stretch_self values
  have hok : ∃ ys, s.accumulate values xs = .ok ys := by
    simp only [accumulate, update, hstretch, bind, Except.bind]
    exact ⟨_, rfl⟩
  obtain ⟨ys, hys⟩ := hok
  exact ⟨ys, hys, (length_accumulate hys).trans hx⟩

theorem zeros_eq_ok [Zero α] {n : Int} (hn : 0 ≤ n) :
    zeros n = .ok (List.replicate n.toNat (0 : α)) := if_neg (by omega)

section
variable [Zero α] [Add α]

/-- A regular block vector is materialized to every length that its dimension does not exceed. -/
theorem BlockVector.Regular.exists_dense {v : BlockVector α} (h : v.Regular) {n : Int}
    (hn : v.dimension ≤ n) : ∃ xs, v.dense n = .ok xs ∧ (xs.length : Int) = n := by
  have h0 := h.dimension_nonneg
  obtain ⟨xs, hxs, hlen⟩ : ∃ xs, scatter v.pieces (List.replicate n.toNat 0) = .ok xs ∧
      xs.length = n.toNat := by
    refine exists_foldlM (fun piece hp xs hx => ?_) List.length_replicate
    obtain ⟨hb, hl⟩ := h.wellFormed.mem_pieces hp
    have hstop := stop_le_dimension hb
    exact Span.On.exists_accumulate ⟨h.nonneg _ hb, by omega⟩ hl hx
  exact ⟨xs, dense_eq_ok.2 ⟨hn, by omega, hxs⟩, by omega⟩

end

theorem Dense.length_vecMul [Zero α] [Add α] [Mul α] {c : Nat} {rows : List (List α)}
    (hw : ∀ row ∈ rows, row.length = c) (y : List α) : (vecMul c y rows).length = c := by
  refine length_foldl_add (fun u hu => ?_) List.length_replicate
  rw [← List.map_uncurry_zip_eq_zipWith] at hu
  obtain ⟨⟨a, row⟩, hrow, rfl⟩ := List.mem_map.1 hu
  exact (List.length_map _).trans (hw row (List.of_mem_zip hrow).2)

namespace BlockMatrix

variable [Zero α] [Add α] [Mul α] {A : BlockMatrix α}

/-- A regular matrix multiplies every operand that is as long as it reaches. -/
theorem Regular.exists_apply (h : A.Regular) {x : Operand α} {xs : List α}
    (hx : x.resolve A.columns = .ok xs) (hn : A.columns ≤ xs.length) :
    ∃ ys, A.apply x = .ok ys ∧ ys.length = A.rows.toNat := by
  rw [h.apply_eq_foldlM hx]
  refine exists_foldlM (fun panel hp ys hy => ?_) List.length_replicate
  have hfits := h.fits (Int.self_le_toNat _) hn hp
  rw [applyPanel, if_pos ((hfits.columns_on.length_slice rfl).trans hfits.solid.2.symm)]
  exact hfits.rows_on.exists_accumulate (by simp [Dense.mulVec, hfits.height_toSpan]) hy

/-- So does its transpose. -/
theorem Regular.exists_adjoint (h : A.Regular) {y : Operand α} {ys : List α}
    (hy : y.resolve A.rows = .ok ys) (hm : A.rows ≤ ys.length) :
    ∃ xs, A.adjoint y = .ok xs ∧ xs.length = A.columns.toNat := by
  rw [h.adjoint_eq_foldlM hy]
  refine exists_foldlM (fun panel hp xs hx => ?_) List.length_replicate
  have hfits := h.fits hm (Int.self_le_toNat _) hp
  rw [adjointPanel, if_pos ((hfits.rows_on.length_slice rfl).trans hfits.solid.1.symm)]
  refine hfits.columns_on.exists_accumulate ?_ hx
  rw [Dense.length_vecMul hfits.width, hfits.solid.2]

end BlockMatrix

/-! ## Runs of the linear solver -/

namespace LinearSystem

variable {A : LinearSystem α}

/-- A regular matrix that the axes of the system hold. -/
structure Holds (A : LinearSystem α) : Prop where
  regular : A.matrix.Regular
  rows_le : A.matrix.rows ≤ A.rows
  columns_le : A.matrix.columns ≤ A.columns

section
variable [Zero α] [Add α] [Mul α]

/-- Both products exist for vectors of the axes. -/
theorem Holds.multiplies (h : A.Holds) : A.Multiplies where
  exists_forward {x} hx := by
    have hreach : A.matrix.columns ≤ x.length := hx ▸ h.columns_le
    have hrows := h.rows_le
    obtain ⟨y, hy, hlen⟩ := h.regular.exists_apply (Operand.resolve_ofList hreach) hreach
    obtain ⟨z, hz, hlen'⟩ := Dense.exists_pad (show y.length ≤ A.rows by omega)
    exact ⟨z, bind_eq_ok.2 ⟨y, hy, hz⟩, hlen'⟩
  exists_adjoint {y} hy := by
    have hreach : A.matrix.rows ≤ y.length := hy ▸ h.rows_le
    have hcolumns := h.columns_le
    obtain ⟨x, hx, hlen⟩ := h.regular.exists_adjoint (Operand.resolve_ofList hreach) hreach
    obtain ⟨z, hz, hlen'⟩ := Dense.exists_pad (show x.length ≤ A.columns by omega)
    exact ⟨z, bind_eq_ok.2 ⟨x, hx, hz⟩, hlen'⟩

variable [Sub α]

/-- Where the lengths are those of the axes, a run starts. -/
theorem Holds.exists_start (h : A.Holds) {b x : List α} (hb : b.length = A.rows)
    (hx : x.length = A.columns) :
    ∃ first, A.start (.ofList b) (.ofList x) = .ok first ∧ A.Sized first := by
  obtain ⟨y, hy, hlen⟩ := h.multiplies.exists_forward hx
  have hr := Tensor.combine_ofList (f := (· - · : α → α → α)) (hb.trans hlen.symm)
  obtain ⟨s, hs, hlen'⟩ :=
    h.multiplies.exists_adjoint (y := List.zipWith (· - ·) b y) (by simp [hb, hlen])
  refine ⟨⟨x, List.zipWith (· - ·) b y, s, s, Dense.normSq s, 0⟩, ?_, hx, by simp [hb, hlen],
    hlen', hlen'⟩
  simp only [start, hy, hr, hs, bind, Except.bind, Tensor.data_ofList]

end

end LinearSystem

/-- The solver refuses no system whose axes hold a regular matrix. Its solution is as long as its
starting point, and none of its steps divides by zero. -/
theorem LinearSettings.exists_solve [Zero α] [Add α] [Sub α] [Mul α] [Div α] [BEq α] [LT α]
    [DecidableLT α] {A : BlockMatrix α} (hA : A.Regular) {b : Operand α} {f x : List α}
    (hb : b.rightHandSide A.rows = .ok (.ofList f)) (hrows : A.rows ≤ f.length)
    (hx : A.columns ≤ x.length) (settings : LinearSettings α) :
    ∃ (first : Iterate α) (out : Solution α),
      (⟨A, f.length, x.length⟩ : LinearSystem α).start (.ofList f) (.ofList x) = .ok first ∧
      settings.solve A b (.ofList x) = .ok out ∧ out.last.x.length = x.length ∧
      (⟨A, f.length, x.length⟩ : LinearSystem α).Divides first out.trace := by
  have hholds : (⟨A, f.length, x.length⟩ : LinearSystem α).Holds := ⟨hA, hrows, hx⟩
  obtain ⟨first, hfirst, hsized⟩ := hholds.exists_start rfl rfl
  have hsolve : ∃ out, settings.solve A b (.ofList x) = .ok out ∧ out.last.x.length = x.length ∧
      (⟨A, f.length, x.length⟩ : LinearSystem α).Divides first out.trace := by
    simp only [solve_eq_bind, hb, Tensor.leading, Tensor.shape_ofList, hfirst, bind, Except.bind]
    split
    · exact ⟨_, rfl, hsized.x, .done⟩
    · rename_i hgamma
      obtain ⟨out, hout, hlast, hdivides⟩ :=
        hholds.multiplies.exists_run settings.precision settings.maxIterations.toNat hsized hgamma
      exact ⟨out, hout, hlast.x, hdivides⟩
  obtain ⟨out, hout, hlen, hdivides⟩ := hsolve
  exact ⟨first, out, hfirst, hout, hlen, hdivides⟩

end LeastSquares
