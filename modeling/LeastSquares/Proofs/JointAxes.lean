import LeastSquares.Proofs.Linearization
import LeastSquares.Proofs.Shapes
import LeastSquares.Proofs.Sizes

/-!
# Linear models on joint axes

The linear model of a residual, and with it that of a graph of residuals, is regular and reaches no
further than the joint tangent space of the assignment (`ResidualFactor.linearize_over`,
`Graph.ofResiduals_over`). It is so in any arithmetic, since it depends on spans alone: the rows of
a Jacobian lie on the joint axis (`BlockVector.On`), collated rows make a matrix on it
(`BlockMatrix.of_collate`), and a stack moves matrices and biases down by equal amounts
(`Graph.Stack.Over.push`).

So neither the gradient at the model nor its least-squares solution is refused, and the solution is
a joint tangent vector (`LinearModel.Over.exists_adjoint`, `LinearModel.Over.exists_solution`).
-/

namespace LeastSquares

variable {α : Type}

/-! ## Rows -/

/-- A well-formed block vector whose blocks lie on an axis of `n` positions. -/
structure BlockVector.On (v : BlockVector α) (n : Nat) : Prop where
  wellFormed : v.WellFormed
  blocks : ∀ block ∈ v.blocks, block.On n

theorem BlockVector.On.zero (n : Nat) : (0 : BlockVector α).On n := ⟨rfl, by simp⟩

theorem BlockVector.On.add {v w : BlockVector α} {n : Nat} (hv : v.On n) (hw : w.On n) :
    (v + w).On n :=
  ⟨hv.wellFormed.add hw.wellFormed, fun block hb =>
    (List.mem_append.1 hb).elim (hv.blocks block) (hw.blocks block)⟩

theorem BlockVector.On.regular {v : BlockVector α} {n : Nat} (h : v.On n) : v.Regular :=
  ⟨h.wellFormed, fun block hb => (h.blocks block hb).nonneg⟩

theorem BlockVector.On.dimension_le {v : BlockVector α} {n : Nat} (h : v.On n) :
    v.dimension ≤ n := by
  refine getD_max?_le (Int.natCast_nonneg n) fun b hb => ?_
  obtain ⟨block, hblock, rfl⟩ := List.mem_map.1 hb
  exact (h.blocks block hblock).stop_le

/-- The span of a variable lies on the joint axis. -/
theorem Assignment.span_on [Zero α] [Add α] {s : Assignment α} {key : Int} {span : Span}
    (h : s.span key = .ok span) : span.On s.dimension := by
  have hkey : key ∈ s.keys := by
    rw [← map_fst_layout]
    unfold Assignment.span lookup at h
    split at h
    · rename_i hlookup
      obtain ⟨before, after, hsplit, -⟩ := List.lookup_eq_some_iff.1 hlookup
      simp [hsplit]
    · cases h
  obtain ⟨x, hx⟩ := mem_keys.1 hkey
  obtain ⟨span', hspan', hon, -⟩ := find_translate hx
  cases h.symm.trans hspan'
  exact hon

section
variable [Zero α] [Add α] {s : Assignment α} {blocks : List (Int × List (List α))}

/-- An embedded sensitivity lies on the joint axis. -/
theorem Assignment.on_of_embed {key : Int} {values : List α} {part : BlockVector α}
    (h : s.embed key values = .ok part) : part.On s.dimension := by
  obtain ⟨span, hspan, hpart⟩ := bind_eq_ok.1 h
  obtain ⟨hwf, hblocks⟩ := BlockVector.of_ofBlock hpart
  refine ⟨hwf, fun block hb => ?_⟩
  rw [hblocks, List.mem_singleton] at hb
  exact hb ▸ span_on hspan

/-- A row of a Jacobian lies on the joint axis. -/
theorem on_of_assembleRow {i : Nat} {row : BlockVector α} (h : assembleRow s blocks i = .ok row) :
    row.On s.dimension := by
  refine of_foldlM (P := fun row : BlockVector α => row.On s.dimension)
    (fun block _ acc acc' hacc hstep => ?_) (BlockVector.On.zero _) h
  obtain ⟨part, hpart, hstep⟩ := bind_eq_ok.1 hstep
  cases hstep
  exact hacc.add (Assignment.on_of_embed hpart)

end

/-- Collated rows of an axis make a regular matrix on it, of no more rows. -/
theorem BlockMatrix.of_collate {rows : List (BlockVector α)} {A : BlockMatrix α} {n : Nat}
    (h : collate rows = .ok A) (hrows : ∀ row ∈ rows, row.On n) :
    A.Regular ∧ A.rows ≤ rows.length ∧ A.columns ≤ n := by
  cases rows with
  | nil =>
    cases h
    exact ⟨.zero, le_refl 0, Int.natCast_nonneg n⟩
  | cons first rest =>
    obtain ⟨hregular, hheight, hcolumns⟩ := regular_collate h
      (fun row hrow => (hrows row hrow).wellFormed) (hrows first (List.mem_cons_self ..)).blocks
    exact ⟨hregular, hheight.le, hcolumns⟩

/-! ## Models -/

/-- An assembled model is over the joint tangent space. -/
theorem LinearModel.of_assemble [Zero α] [Add α] [Neg α] {s : Assignment α}
    {blocks : List (Int × List (List α))} {residual : List α} {model : LinearModel α}
    (h : assemble s blocks residual = .ok model) : model.Over s.dimension := by
  obtain ⟨rows, hrows, h⟩ := bind_eq_ok.1 h
  obtain ⟨matrix, hmatrix, h⟩ := bind_eq_ok.1 h
  cases h
  have hall := forall₂_of_mapM hrows
  have hlen : residual.length = rows.length := by
    rw [← hall.length_eq, List.length_range]
  obtain ⟨hregular, hheight, hcolumns⟩ := BlockMatrix.of_collate hmatrix
    (forall_mem_of_forall₂ hall fun i _ row hrow => on_of_assembleRow hrow)
  refine ⟨⟨hregular, BlockVector.regular_ofList _, ?_⟩, hcolumns⟩
  rw [BlockVector.dimension_ofList, List.length_map, hlen]
  exact hheight

section
variable [Zero α] [One α] [Add α] [Neg α] [Elementary α] {s : Assignment α} {model : LinearModel α}

/-- The linear model of a residual is over the joint tangent space. -/
theorem ResidualFactor.linearize_over {f : ResidualFactor α} (h : f.linearize s = .ok model) :
    model.Over s.dimension := by
  obtain ⟨_, -, h⟩ := bind_eq_ok.1 h
  obtain ⟨u, -, h⟩ := bind_eq_ok.1 h
  obtain ⟨t, -, h⟩ := bind_eq_ok.1 h
  dsimp only at h
  split at h
  · cases h
  · obtain ⟨blocks, -, hmodel⟩ := bind_eq_ok.1 h
    exact LinearModel.of_assemble hmodel

end

/-! ## Stacks -/

section
variable [Zero α] [Add α] {n : Nat}

namespace Graph

/-- A stack whose model is over a tangent space of `n` dimensions, with all rows of the bias
counted. -/
structure Stack.Over (stack : Stack α) (n : Nat) : Prop where
  model : stack.model.Over n
  height_eq : stack.height = stack.model.bias.dimension

omit [Zero α] [Add α] in
theorem Stack.Over.empty : (Stack.empty : Stack α).Over n :=
  ⟨⟨⟨.zero, .zero, le_refl 0⟩, Int.natCast_nonneg n⟩, rfl⟩

/-- A model that is pushed is moved behind all rows, and its columns stay where they are. -/
theorem Stack.Over.push {stack stack' : Stack α} {model : LinearModel α} (h : stack.Over n)
    (hm : model.Over n) (hpush : stack.push model = .ok stack') : stack'.Over n := by
  obtain ⟨moved, hmove, hpush⟩ := bind_eq_ok.1 hpush
  obtain ⟨dense, -, hpush⟩ := bind_eq_ok.1 hpush
  obtain ⟨bias, hbias, hpush⟩ := bind_eq_ok.1 hpush
  have hlevel := hm.regular.matrix.level
  cases (hlevel.wellFormed.moveDown_eq hlevel.rows_solid stack.height).symm.trans hmove
  cases hpush
  obtain ⟨⟨hmatrix, hvector, hrows⟩, hcolumns⟩ := h.model
  obtain ⟨⟨hmatrix', hvector', hrows'⟩, hcolumns'⟩ := hm
  have hheight := h.height_eq
  have hpos : 0 ≤ stack.height := hheight ▸ hvector.dimension_nonneg
  have hpos' := hvector'.dimension_nonneg
  obtain ⟨hblock, hdimension⟩ :=
    BlockVector.regular_of_ofBlock hbias ⟨hpos, Int.add_nonneg hpos hpos'⟩
  have hsum : (stack.model.bias + bias).dimension = stack.height + model.bias.dimension := by
    rw [hvector.dimension_add hblock, hdimension]
    dsimp only
    omega
  have hmoved := hmatrix'.shiftRows hpos
  have hstacked := (hmatrix.level.rows_add_shiftRows hlevel hpos (hheight ▸ hrows)).1
  refine ⟨⟨⟨hmatrix.add hmoved, hvector.add hblock, ?_⟩, ?_⟩, hsum.symm⟩
  · dsimp only
    omega
  · rw [hmatrix.columns_add hmoved.toAdmissible, BlockMatrix.columns_shiftRows]
    exact max_le hcolumns hcolumns'

end Graph

end

/-- The linear model of a graph of residuals is over the joint tangent space. -/
theorem Graph.ofResiduals_over [Zero α] [One α] [Add α] [Neg α] [Mul α] [Elementary α]
    {fs : List (ResidualFactor α)} {s : Assignment α} {model : LinearModel α}
    (h : (ofResiduals fs).linearize s = .ok model) : model.Over s.dimension := by
  obtain ⟨models, stack, hmodels, hfold, rfl⟩ := linearize_eq_ok.1 h
  rw [ofResiduals, List.forall₂_map_left_iff] at hmodels
  have hover : ∀ m ∈ models, m.Over s.dimension :=
    forall_mem_of_forall₂ hmodels fun f _ m hm => ResidualFactor.linearize_over hm
  have hstack : stack.Over s.dimension :=
    of_foldlM (P := fun stack => stack.Over s.dimension)
      (fun m hm _ _ hacc hpush => hacc.push (hover m hm) hpush) .empty hfold
  exact hstack.model

/-! ## Solutions -/

namespace LinearModel.Over

variable [Zero α] [Add α] [Mul α] {model : LinearModel α} {n : Nat}

/-- The gradient at a model is not refused. -/
theorem exists_adjoint (h : model.Over n) :
    ∃ gradient, model.matrix.adjoint (.sparse model.bias) = .ok gradient := by
  obtain ⟨bias, hbias, hlen⟩ := h.regular.bias.exists_dense le_rfl
  have hresolve : (Operand.sparse model.bias).resolve model.matrix.rows = .ok bias := by
    rw [Operand.resolve, max_eq_right h.regular.rows_le]
    exact hbias
  obtain ⟨gradient, hgradient, -⟩ :=
    h.regular.matrix.exists_adjoint hresolve (hlen ▸ h.regular.rows_le)
  exact ⟨gradient, hgradient⟩

variable [Sub α] [Div α] [BEq α] [LT α] [DecidableLT α]

/-- The least-squares solution of a model from zero is not refused. It is a joint tangent vector,
and no step to it divides by zero. -/
theorem exists_solution (h : model.Over n) (settings : LinearSettings α) :
    ∃ (bias : List α) (first : Iterate α) (solution : Solution α),
      model.bias.dense model.bias.dimension = .ok bias ∧
      (⟨model.matrix, bias.length, n⟩ : LinearSystem α).start (.ofList bias)
        (.ofList (List.replicate n 0)) = .ok first ∧
      settings.solve model.matrix (.sparse model.bias) (.ofList (List.replicate n 0)) =
        .ok solution ∧
      solution.last.x.length = n ∧
      (⟨model.matrix, bias.length, n⟩ : LinearSystem α).Divides first solution.trace := by
  obtain ⟨bias, hbias, hlen⟩ := h.regular.bias.exists_dense le_rfl
  have hside : (Operand.sparse model.bias).rightHandSide model.matrix.rows =
      .ok (.ofList bias) := by
    rw [Operand.rightHandSide, max_eq_right h.regular.rows_le, hbias]
    rfl
  obtain ⟨first, solution, hfirst, hsolve, hx, hdivides⟩ :=
    LinearSettings.exists_solve h.regular.matrix hside (hlen ▸ h.regular.rows_le)
      (x := List.replicate n 0) (by rw [List.length_replicate]; exact h.columns_le) settings
  rw [List.length_replicate] at hfirst hx hdivides
  exact ⟨bias, first, solution, hbias, hfirst, hsolve, hx, hdivides⟩

end LinearModel.Over

end LeastSquares
