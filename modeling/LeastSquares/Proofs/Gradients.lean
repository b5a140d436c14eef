import LeastSquares.Proofs.Stacking

/-!
# Gradients of stacked models

The gradient at a linear model, the product of its transposed matrix with its bias, is a fold over
the panels of the matrix. In a stack each panel meets the part of the bias that is that of its own
model, wherever the model lies (`LinearModel.Level.foldlM_foldl_above`), and what a panel
contributes to the gradient, or that it is refused, does not depend on what other panels contributed
(`LinearModel.contribute_eq_ok`). So the order in which models are stacked does not matter to the
gradient (`LinearModel.Level.adjoint_perm`), also where a model steps over columns and the stack
multiplies no vector.
-/

namespace LeastSquares

variable {K : Type}

/-! ## Parts of a bias -/

namespace BlockMatrix

section
variable [Zero K] [Add K] [Mul K] {panel : Tile × List (List K)} {y z : List K}

/-- A panel on the rows of the first of two lists contributes nothing from the second one. -/
theorem adjointPanel_append (h : panel.1.rows.On y.length) (acc : List K) :
    adjointPanel (y ++ z) acc panel = adjointPanel y acc panel := by
  rw [adjointPanel, adjointPanel, h.slice_append]

/-- A panel that was moved behind the first of two lists contributes what it does by itself. -/
theorem adjointPanel_append_shiftRows (hs : panel.1.rows.Solid) (h : panel.1.rows.On z.length)
    (acc : List K) :
    adjointPanel (y ++ z) acc (panel.1.shiftRows y.length, panel.2) = adjointPanel z acc panel := by
  have hrows : panel.1.rows.length = panel.1.rows.toSpan.length := hs
  simp only [adjointPanel, Tile.rows_shiftRows, Tile.columns_shiftRows, Span.toSpan_toStride,
    Span.length_toStride, Span.length_shift, h.slice_append_shift, hrows]

end

section
variable {A : BlockMatrix K} {panel : Tile × List (List K)}

/-- The panels of an admissible matrix lie on any rows that it does not exceed. -/
theorem Admissible.rows_on (h : A.Admissible) {m : Nat} (hm : A.rows ≤ m)
    (hp : panel ∈ A.panels) : panel.1.rows.On m := by
  have ht := (h.wellFormed.mem_panels hp).1
  exact ⟨(h.nonneg _ ht).1, (rows_stop_le ht).trans hm⟩

/-- They lie on any columns that it does not exceed. -/
theorem Admissible.columns_on (h : A.Admissible) {n : Nat} (hn : A.columns ≤ n)
    (hp : panel ∈ A.panels) : panel.1.columns.On n := by
  have ht := (h.wellFormed.mem_panels hp).1
  exact ⟨(h.nonneg _ ht).2, (columns_stop_le ht).trans hn⟩

end

end BlockMatrix

/-! ## Contributions -/

namespace LinearModel

variable [CommSemiring K] {top model : LinearModel K} {models models' : List (LinearModel K)}

/-- The panels of models, each with the bias of its model. -/
def contributions (models : List (LinearModel K)) : List (List K × Tile × List (List K)) :=
  models.flatMap fun m => m.matrix.panels.map fun panel => (m.target, panel)

/-- Adds what a panel contributes to a gradient. -/
def contribute (acc : List K) (p : List K × Tile × List (List K)) : Except Error (List K) :=
  BlockMatrix.adjointPanel p.1 acc p.2

theorem Level.rows_le_length_target (h : model.Level) :
    model.matrix.rows ≤ model.target.length := by
  have hd := h.bias.dimension_nonneg
  have hle := h.rows_le
  rw [length_target, height]
  omega

/-- The panels of a model contribute what its transposed panels make of its bias. -/
theorem foldlM_contributions_cons (acc : List K) :
    (contributions (model :: models)).foldlM contribute acc =
      model.matrix.panels.foldlM (BlockMatrix.adjointPanel model.target) acc >>=
        (contributions models).foldlM contribute := by
  rw [contributions, List.flatMap_cons, List.foldlM_append, List.foldlM_map]
  rfl

/-- The panels of a model above another one contribute as they do by themselves. -/
theorem Level.foldlM_above (h : top.Level) (hm : model.Level) (acc : List K) :
    (top.above model).matrix.panels.foldlM
        (BlockMatrix.adjointPanel (top.above model).target) acc =
      top.matrix.panels.foldlM (BlockMatrix.adjointPanel top.target) acc >>=
        model.matrix.panels.foldlM (BlockMatrix.adjointPanel model.target) := by
  have hlength : top.bias.dimension = top.target.length := by
    have hd := h.bias.dimension_nonneg
    rw [length_target, height]
    omega
  have hpanels : (top.above model).matrix.panels = top.matrix.panels ++
      model.matrix.panels.map fun panel => (panel.1.shiftRows top.target.length, panel.2) := by
    rw [LinearModel.above, h.matrix.wellFormed.panels_add,
      BlockMatrix.panels_shiftRows hm.matrix.rows_solid, hlength]
  rw [hpanels, target_above h.bias hm.bias, List.foldlM_append]
  congr 1
  · refine foldlM_congr (fun panel hp acc => ?_) acc
    exact BlockMatrix.adjointPanel_append (h.matrix.rows_on h.rows_le_length_target hp) acc
  · funext acc
    rw [List.foldlM_map]
    refine foldlM_congr (fun panel hp acc => ?_) acc
    have ht := (hm.matrix.wellFormed.mem_panels hp).1
    exact BlockMatrix.adjointPanel_append_shiftRows (hm.matrix.rows_solid _ ht)
      (hm.matrix.rows_on hm.rows_le_length_target hp) acc

/-- So do those of models below a model, one after the other. -/
theorem Level.foldlM_foldl_above (h : top.Level) (hm : ∀ m ∈ models, m.Level) (acc : List K) :
    (models.foldl LinearModel.above top).matrix.panels.foldlM
        (BlockMatrix.adjointPanel (models.foldl LinearModel.above top).target) acc =
      (contributions (top :: models)).foldlM contribute acc := by
  induction models generalizing top with
  | nil =>
    rw [foldlM_contributions_cons]
    exact (bind_pure _).symm
  | cons model models ih =>
    have hmodel := hm model (List.mem_cons_self ..)
    rw [List.foldl_cons, ih (h.above hmodel) fun m hmem => hm m (List.mem_cons_of_mem _ hmem),
      foldlM_contributions_cons, h.foldlM_above hmodel, foldlM_contributions_cons, bind_assoc]
    refine bind_congr fun acc => ?_
    rw [foldlM_contributions_cons]

/-- What a panel makes of its part of the bias, a value for each of its columns. -/
def share (p : List K × Tile × List (List K)) : List K :=
  Dense.vecMul p.2.1.columns.length (p.2.1.rows.slice p.1) p.2.2

/-- A panel that contributes the given values: it has a row for each entry of its part of the bias,
and its values are as many as the columns between its bounds or are repeated for these. -/
def Contributes (p : List K × Tile × List (List K)) (values : List K) : Prop :=
  (p.2.1.rows.slice p.1).length = p.2.1.rows.length ∧
    stretch p.2.1.columns.toSpan.length (share p) = .ok values

/-- The contribution of a panel to the entries of a gradient. -/
def contribution (n : Nat) (p : List K × Tile × List (List K)) : Fin n → K := fun j =>
  p.2.1.columns.pick 0 ((stretch p.2.1.columns.toSpan.length (share p)).toOption.getD []) j

/-- A panel adds its contribution, or is refused, whatever is there already. -/
theorem contribute_eq_ok {n : Nat} {p : List K × Tile × List (List K)}
    (hon : p.2.1.columns.toSpan.On n) {f : Fin n → K} {c : List K} :
    contribute (List.ofFn f) p = .ok c ↔
      (∃ values, Contributes p values) ∧ c = List.ofFn (f + contribution n p) := by
  have hvalues : ∀ {values}, stretch p.2.1.columns.toSpan.length (share p) = .ok values →
      contribution n p = fun j : Fin n => p.2.1.columns.pick 0 values j := by
    intro values h
    funext j
    rw [contribution, h]
    rfl
  have hstep : contribute (List.ofFn f) p =
      if (p.2.1.rows.slice p.1).length = p.2.1.rows.length then
        (stretch p.2.1.columns.toSpan.length (share p)).map fun values =>
          List.ofFn (f + fun j : Fin n => p.2.1.columns.pick 0 values j)
      else .error .lengthMismatch := by
    rw [contribute, BlockMatrix.adjointPanel, Span.accumulate_eq_map hon]
    rfl
  rw [hstep]
  constructor
  · intro h
    split at h
    · rename_i hrows
      cases hshare : stretch p.2.1.columns.toSpan.length (share p) with
      | error =>
        rw [hshare] at h
        cases h
      | ok values =>
        rw [hshare] at h
        cases h
        exact ⟨⟨values, hrows, hshare⟩, by rw [hvalues hshare]⟩
    · cases h
  · rintro ⟨⟨values, hrows, hshare⟩, rfl⟩
    rw [if_pos hrows, hshare, hvalues hshare]
    rfl

/-- Panels add up their contributions, in any order. -/
theorem foldlM_contribute_eq_ok {n : Nat} {ps : List (List K × Tile × List (List K))}
    (hon : ∀ p ∈ ps, p.2.1.columns.toSpan.On n) {c : List K} :
    ps.foldlM contribute (List.replicate n 0) = .ok c ↔
      (∀ p ∈ ps, ∃ values, Contributes p values) ∧
        c = List.ofFn (ps.map (contribution n)).sum := by
  have hzero : List.replicate n (0 : K) = List.ofFn (0 : Fin n → K) := replicate_eq_ofFn ..
  rw [hzero]
  constructor
  · intro h
    have hadd := of_foldlM_add (fun p hp f c => (contribute_eq_ok (hon p hp)).1) h
    rwa [zero_add] at hadd
  · rintro ⟨hall, rfl⟩
    have hadd := foldlM_add List.ofFn contribute (contribution n)
      (fun p hp f => (contribute_eq_ok (hon p hp)).2 ⟨hall p hp, rfl⟩) 0
    rwa [zero_add] at hadd

/-! ## Stacks in another order -/

/-- A stack reaches as far to the right as its models do. -/
theorem Level.columns_foldl_above_le (h : top.Level) (hm : ∀ m ∈ models, m.Level) {c : Int} :
    (models.foldl LinearModel.above top).matrix.columns ≤ c ↔
      top.matrix.columns ≤ c ∧ ∀ m ∈ models, m.matrix.columns ≤ c := by
  induction models generalizing top with
  | nil => simp
  | cons model models ih =>
    have hmodel := hm model (List.mem_cons_self ..)
    rw [List.foldl_cons, ih (h.above hmodel) fun m hmem => hm m (List.mem_cons_of_mem _ hmem),
      h.columns_above hmodel, max_le_iff, List.forall_mem_cons, and_assoc]

/-- The gradient of stacked models adds up the contributions of their panels. -/
theorem adjoint_stacked (hm : ∀ m ∈ models, m.Level) :
    (stacked models).matrix.adjoint (.sparse (stacked models).bias) =
      (contributions models).foldlM contribute
        (List.replicate (stacked models).matrix.columns.toNat 0) := by
  have hlevel := level_stacked hm
  rw [hlevel.matrix.adjoint_eq_foldlM hlevel.resolve_bias]
  exact Level.empty.foldlM_foldl_above hm _

/-- Models that are stacked in another order have the same gradient, if they have one. -/
theorem Level.adjoint_perm (hm : ∀ m ∈ models, m.Level) (hperm : models.Perm models')
    {gradient : List K}
    (h : (stacked models).matrix.adjoint (.sparse (stacked models).bias) = .ok gradient) :
    (stacked models').matrix.adjoint (.sparse (stacked models').bias) = .ok gradient := by
  have hm' : ∀ m ∈ models', m.Level := fun m hmem => hm m (hperm.mem_iff.2 hmem)
  have hcolumns : (stacked models').matrix.columns = (stacked models).matrix.columns := by
    refine eq_of_forall_ge_iff fun c => ?_
    simp only [stacked, Level.empty.columns_foldl_above_le hm,
      Level.empty.columns_foldl_above_le hm', hperm.mem_iff]
  have hon : ∀ p ∈ contributions models,
      p.2.1.columns.toSpan.On (stacked models).matrix.columns.toNat := by
    intro p hp
    obtain ⟨m, hmem, hp⟩ := List.mem_flatMap.1 hp
    obtain ⟨panel, hpanel, rfl⟩ := List.mem_map.1 hp
    have hle := ((Level.empty.columns_foldl_above_le hm).1 le_rfl).2 m hmem
    exact (hm m hmem).matrix.columns_on (hle.trans (Int.self_le_toNat _)) hpanel
  have hpieces : (contributions models).Perm (contributions models') := hperm.flatMap_right _
  rw [adjoint_stacked hm, foldlM_contribute_eq_ok hon] at h
  rw [adjoint_stacked hm', hcolumns,
    foldlM_contribute_eq_ok fun p hp => hon p (hpieces.mem_iff.2 hp)]
  exact ⟨fun p hp => h.1 p (hpieces.mem_iff.2 hp), h.2.trans (by rw [(hpieces.map _).sum_eq])⟩

end LinearModel

end LeastSquares
