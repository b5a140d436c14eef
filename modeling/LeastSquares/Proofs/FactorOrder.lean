import LeastSquares.Proofs.Bands
import LeastSquares.Proofs.Gaps
import LeastSquares.Proofs.GlobalMinimum
import LeastSquares.Proofs.Gradients
import LeastSquares.Proofs.JointAxes
import LeastSquares.Proofs.Lockstep

/-!
# The order of factors

A graph whose factors keep what they promise of their linear models (`Factor.Lawful`) does the same
with its factors in another order: its cost adds up the same costs, and its linear model stacks the
same models, which have the same gradient and, unless a model steps over columns and every solve is
refused, normal equations that add up the same inner products (`LinearModel.agrees_perm`). Since a
stack gets to see the moved tiles and the dense form of a bias only, the models are of level tiles
and single blocks without loss of generality (`Graph.linearize_materialized`). So the order of the
factors does not matter to a run of the method of Gauss and Newton
(`Minimizer.Settings.minimize_perm`).
-/

namespace LeastSquares

variable {K : Type}

/-! ## Materialized models -/

namespace BlockVector

/-- A materialized vector is its own dense form. -/
theorem dense_ofList [AddCommMonoid K] (xs : List K) :
    (ofList xs).dense xs.length = .ok xs := by
  rw [(regular_ofList xs).dense_eq (dimension_ofList xs).le]
  refine congrArg Except.ok (List.ext_getElem (by simp) fun i h₁ h₂ => ?_)
  rw [List.getElem_ofFn, entry_ofList, List.getD_eq_getElem _ _ h₂]

end BlockVector

/-- The model with its rows counted by their bounds and its bias as one block. -/
def LinearModel.materialize [Zero K] [Add K] (model : LinearModel K) :
    Except Error (LinearModel K) := do
  let matrix ← model.matrix.moveDown 0
  let bias ← model.bias.dense model.bias.dimension
  .ok ⟨matrix, .ofList bias⟩

/-- Only this of a model gets onto a stack. -/
theorem Graph.Stack.push_materialize [AddCommMonoid K] (stack : Stack K) (model : LinearModel K) :
    model.materialize >>= stack.push = stack.push model := by
  rw [LinearModel.materialize, push]
  by_cases hcount : (model.matrix.shiftRows 0).WellFormed
  · have hcount' : ((model.matrix.shiftRows 0).shiftRows 0).WellFormed := by
      rwa [BlockMatrix.shiftRows_shiftRows]
    rw [BlockMatrix.moveDown_eq_of_wellFormed hcount, BlockMatrix.moveDown_eq_of_wellFormed hcount]
    cases h : model.bias.dense model.bias.dimension with
    | error => rfl
    | ok xs =>
      change stack.push ⟨model.matrix.shiftRows 0, .ofList xs⟩ = _
      rw [push, BlockMatrix.moveDown_eq_of_wellFormed hcount', BlockMatrix.shiftRows_shiftRows,
        zero_add, BlockVector.dimension_ofList, BlockVector.dense_ofList,
        BlockVector.length_dense h]
  · rw [BlockMatrix.moveDown_eq_error hcount, BlockMatrix.moveDown_eq_error hcount]
    rfl

/-! ## Lawful factors -/

/-- What factors promise of their linear models: bounds are not negative, the matrix has no more
rows than the bias has entries, and no columns beyond the joint tangent space. -/
structure Factor.Lawful (f : Factor K) : Prop where
  admissible : ∀ {s model}, f.linearize s = .ok model → model.matrix.Admissible
  rows_le : ∀ {s model}, f.linearize s = .ok model → model.matrix.rows ≤ model.bias.dimension
  columns_le : ∀ {s model}, f.linearize s = .ok model → model.matrix.columns ≤ s.dimension

/-- A factor of a residual keeps these promises, whatever the residual is. -/
theorem ResidualFactor.lawful [CommRing K] [Elementary K] (f : ResidualFactor K) :
    f.toFactor.Lawful where
  admissible hmodel := (linearize_over hmodel).regular.matrix.toAdmissible
  rows_le hmodel := (linearize_over hmodel).regular.rows_le
  columns_le hmodel := (linearize_over hmodel).columns_le

section
variable [AddCommMonoid K] {f : Factor K} {g : Graph K} {s : Assignment K} {model : LinearModel K}

/-- The factor with its models materialized. -/
def Factor.materialized (f : Factor K) : Factor K where
  name := f.name
  keys := f.keys
  cost := f.cost
  linearize s := do
    let model ← f.linearize s
    model.materialize

omit [AddCommMonoid K] in
/-- A matrix of bounds that are not negative is level once it is counted by them. -/
theorem BlockMatrix.Admissible.level_shiftRows_zero {A : BlockMatrix K} (h : A.Admissible)
    (hcount : (A.shiftRows 0).WellFormed) : (A.shiftRows 0).Level := by
  refine ⟨⟨hcount, fun t ht => ?_⟩, fun t ht => ?_⟩
  · obtain ⟨u, hu, rfl⟩ := List.mem_map.1 ht
    simpa [Tile.shiftRows, Tile.Nonneg, Span.shift, Span.Nonneg] using h.nonneg u hu
  · obtain ⟨u, -, rfl⟩ := List.mem_map.1 ht
    exact Span.solid_toStride _

/-- The models of a lawful factor are level once they are materialized. -/
theorem Factor.Lawful.level (h : f.Lawful) (hmodel : f.materialized.linearize s = .ok model) :
    model.Level ∧ model.matrix.columns ≤ s.dimension := by
  obtain ⟨raw, hraw, hmodel⟩ := bind_eq_ok.1 hmodel
  obtain ⟨matrix, hmatrix, hmodel⟩ := bind_eq_ok.1 hmodel
  obtain ⟨bias, hbias, hmodel⟩ := bind_eq_ok.1 hmodel
  cases hmodel
  by_cases hcount : (raw.matrix.shiftRows 0).WellFormed
  · rw [BlockMatrix.moveDown_eq_of_wellFormed hcount] at hmatrix
    cases hmatrix
    have hrows : (raw.matrix.shiftRows 0).rows ≤ (BlockVector.ofList bias).dimension := by
      rw [BlockVector.dimension_ofList, BlockVector.length_dense hbias,
        BlockMatrix.rows_shiftRows_zero]
      exact h.rows_le hraw
    refine ⟨⟨(h.admissible hraw).level_shiftRows_zero hcount, BlockVector.regular_ofList bias,
      hrows⟩, ?_⟩
    rw [BlockMatrix.columns_shiftRows]
    exact h.columns_le hraw
  · rw [BlockMatrix.moveDown_eq_error hcount] at hmatrix
    cases hmatrix

/-- The graph of the materialized factors. -/
def Graph.materialized (g : Graph K) : Graph K := ⟨g.factors.map Factor.materialized⟩

/-- The linear model of a graph is that of the materialized models of its factors. -/
theorem Graph.linearize_materialized (g : Graph K) (s : Assignment K) :
    g.materialized.linearize s = g.linearize s := by
  have hstep : ∀ (stack : Stack K) (f : Factor K), (f.materialized.linearize s >>= stack.push) =
      f.linearize s >>= stack.push := by
    intro stack f
    simp only [Factor.materialized, bind_assoc, Stack.push_materialize]
  simp only [linearize, materialized, List.foldlM_map, hstep]

end

/-! ## Permuted models -/

section
variable [Field K] [LinearOrder K] {models models' : List (LinearModel K)} {n : Nat}

/-- A run can only tell models apart from the same models stacked in another order if it tells apart
their gradients. -/
theorem LinearModel.agrees_perm (hlevel : ∀ m ∈ models, m.Level)
    (hcolumns : ∀ m ∈ models, m.matrix.columns ≤ n) (hperm : models.Perm models') :
    (stacked models).Agrees (stacked models') (.refl (Fin n)) where
  adjoint := fun {gradient} hgradient =>
    ⟨gradient, Level.adjoint_perm hlevel hperm hgradient, rfl⟩
  solve := by
    intro settings out hsolve
    have hstacked := level_stacked hlevel
    have hreach : (stacked models).matrix.columns ≤ n :=
      (Level.empty.columns_foldl_above_le hlevel).2 ⟨Int.natCast_nonneg _, hcolumns⟩
    -- the solver refuses gaps, so there are none
    have hsolid : (stacked models).matrix.Solid := by
      refine Decidable.byContradiction fun hgap => ?_
      have hrefused := settings.solve_eq_error hstacked.matrix.toAdmissible hgap
        hstacked.rightHandSide_bias hstacked.rows_le_length_target
        (by rwa [List.length_replicate] : _ ≤ ((List.replicate n (0 : K)).length : Int))
      cases hsolve.symm.trans hrefused
    have hregular : ∀ m ∈ models, m.Regular := by
      refine fun m hm => (hlevel m hm).regular fun t ht => ?_
      obtain ⟨k, rfl⟩ := List.mem_iff_get.1 hm
      have hmoved := hsolid _ (Level.empty.mem_tiles_foldl_above hlevel k ht)
      exact ⟨(hlevel _ hm).matrix.rows_solid t ht, hmoved.2⟩
    have hregular' : ∀ m ∈ models', m.Regular := fun m hm => hregular m (hperm.mem_iff.2 hm)
    have hcolumns' : ∀ m ∈ models', m.matrix.columns ≤ n :=
      fun m hm => hcolumns m (hperm.mem_iff.2 hm)
    have hholds := Graph.Stack.Holds.stacked hregular
    have hholds' := Graph.Stack.Holds.stacked hregular'
    have hnormal : (stacked models).SameNormal (stacked models') (.refl (Fin n)) := by
      refine ⟨fun v w => ?_, fun v => ?_⟩
      · exact (hholds'.dot_product v w).trans
          ((hperm.symm.map _).sum_eq.trans (hholds.dot_product v w).symm)
      · exact (hholds'.dot_target v).trans
          ((hperm.symm.map _).sum_eq.trans (hholds.dot_target v).symm)
    have hagrees := hnormal.agrees ⟨hholds.regular, hreach⟩
      ⟨hholds'.regular, hholds'.columns_le (Int.natCast_nonneg _) hcolumns'⟩
    exact hagrees.solve hsolve

end

/-! ## Permuted graphs -/

namespace Graph

section
variable [Field K] {g g' : Graph K} {s : Assignment K} {model : LinearModel K}

/-- Materialized models of the factors of a graph, in order. -/
structure Models (g : Graph K) (s : Assignment K) (models : List (LinearModel K)) : Prop where
  linearize_eq : List.Forall₂ (fun f m => f.materialized.linearize s = .ok m) g.factors models
  level : ∀ m ∈ models, m.Level
  columns_le : ∀ m ∈ models, m.matrix.columns ≤ s.dimension

/-- A graph of lawful factors that is linearized has materialized models. -/
theorem exists_models (h : ∀ f ∈ g.factors, f.Lawful) (hmodel : g.linearize s = .ok model) :
    ∃ models, g.Models s models := by
  rw [← linearize_materialized] at hmodel
  obtain ⟨models, -, hmodels, -⟩ := linearize_eq_ok.1 hmodel
  rw [materialized, List.forall₂_map_left_iff] at hmodels
  have hlawful := forall_mem_of_forall₂ hmodels fun f hf m hm => (h f hf).level hm
  exact ⟨models, hmodels, fun m hm => (hlawful m hm).1, fun m hm => (hlawful m hm).2⟩

namespace Models

variable {models : List (LinearModel K)}

/-- Materialized models are stacked to the linear model of the graph. -/
theorem linearize (h : g.Models s models) : g.linearize s = .ok (.stacked models) := by
  have hmodels : List.Forall₂ (fun f m => f.linearize s = .ok m) g.materialized.factors models := by
    rw [materialized, List.forall₂_map_left_iff]
    exact h.linearize_eq
  rw [← linearize_materialized]
  exact linearize_eq_stacked hmodels h.level

/-- The materialized models of a graph in the order of another one with the same factors. -/
theorem perm (h : g.Models s models) (hperm : g.factors.Perm g'.factors) :
    ∃ models', g'.Models s models' ∧ models'.Perm models := by
  obtain ⟨models', hmodels', hperm'⟩ := List.perm_comp_forall₂ hperm.symm h.linearize_eq
  exact ⟨models', ⟨hmodels', fun m hm => h.level m (hperm'.mem_iff.1 hm),
    fun m hm => h.columns_le m (hperm'.mem_iff.1 hm)⟩, hperm'⟩

end Models

/-- A graph of lawful factors does at every assignment what it does with its factors in another
order. -/
theorem simulates_perm [LinearOrder K] [Elementary K] (hperm : g.factors.Perm g'.factors)
    (h : ∀ f ∈ g.factors, f.Lawful) : Simulates Eq g g' where
  dimension_eq hs := by rw [hs]
  cost_eq := by
    rintro s _ c rfl hcost
    obtain ⟨cs, hcs, hsum⟩ := cost_eq_ok.1 hcost
    obtain ⟨cs', hcs', hperm'⟩ := List.perm_comp_forall₂ hperm.symm hcs
    exact cost_eq_ok.2 ⟨cs', hcs', hperm'.sum_eq.trans hsum⟩
  linearize_eq := by
    rintro s _ model rfl hmodel
    obtain ⟨models, hmodels⟩ := exists_models h hmodel
    cases hmodel.symm.trans hmodels.linearize
    obtain ⟨models', hmodels', hperm'⟩ := hmodels.perm hperm
    exact ⟨_, .refl _, hmodels'.linearize,
      LinearModel.agrees_perm hmodels.level hmodels.columns_le hperm'.symm,
      fun hmove => ⟨_, hmove, rfl⟩⟩

end

end Graph

/-! ## Runs -/

namespace Minimizer

section
variable {out₁ out₂ : Outcome K}

theorem Move.Alike.eq {m₁ m₂ : Move K} (h : m₁.Alike Eq m₂) : m₁ = m₂ := by
  obtain ⟨hindex, hassignment, hcost, hchange, hstep, hgradient, hlinear⟩ := h
  cases m₁
  cases m₂
  simp only at hindex hassignment hcost hchange hstep hgradient hlinear
  rw [hindex, hassignment, hcost, hchange, hstep, hgradient, hlinear]

theorem Outcome.Alike.eq (h : out₁.Alike Eq out₂) : out₁ = out₂ := by
  obtain ⟨hassignment, hending, htrace⟩ := h
  have htrace := htrace.imp fun _ _ hmove => hmove.eq
  rw [List.forall₂_eq_eq_eq] at htrace
  cases out₁
  cases out₂
  simp only at hassignment hending htrace
  rw [hassignment, hending, htrace]

end

variable [Field K] [LinearOrder K] [IsStrictOrderedRing K] [Elementary K] [LawfulNorm K]

/-- The order of lawful factors does not matter to a run: it has the same outcome, of the same
assignment and the same moves, if it has one at all. -/
theorem Settings.minimize_perm {g g' : Graph K} (hperm : g.factors.Perm g'.factors)
    (hlawful : ∀ f ∈ g.factors, f.Lawful) (settings : Settings K) (s : Assignment K)
    (out : Outcome K) : settings.minimize g s = .ok out ↔ settings.minimize g' s = .ok out := by
  have hlawful' : ∀ f ∈ g'.factors, f.Lawful := fun f hf => hlawful f (hperm.mem_iff.2 hf)
  constructor
  · intro hout
    obtain ⟨out', hout', halike⟩ := (Graph.simulates_perm hperm hlawful).minimize rfl hout
    rwa [halike.eq]
  · intro hout
    obtain ⟨out', hout', halike⟩ :=
      (Graph.simulates_perm hperm.symm hlawful').minimize rfl hout
    rwa [halike.eq]

/-- A measurement of a point of a line and one of its displacement to another point, in either
order. -/
theorem Settings.minimize_perm_swapped :
    let s : Assignment ℝ := ⟨[(1, ⟨.line, [0], rfl⟩), (2, ⟨.line, [5], rfl⟩)]⟩
    let pin : Measurement ℝ := .prior "pin" 1 ⟨.line, [1], rfl⟩ 2
    let step : Measurement ℝ := .between "step" 1 2 [1] 3
    let g := Graph.ofMeasurements [pin, step]
    let g' := Graph.ofMeasurements [step, pin]
    let settings : Settings ℝ := ⟨5, 1 / 8, 1 / 8, 1 / 8, 1 / 8, ⟨1 / 8, 2, false⟩, false⟩
    g.factors.Perm g'.factors ∧ (∀ f ∈ g.factors, f.Lawful) ∧
      ∃ out, settings.minimize g s = .ok out ∧ settings.minimize g' s = .ok out := by
  intro s pin step g g' settings
  have hperm : g.factors.Perm g'.factors := .swap _ _ _
  have hlawful : ∀ f ∈ g.factors, f.Lawful := by
    intro f hf
    obtain ⟨m, -, rfl⟩ := List.mem_map.1 hf
    exact m.toResidualFactor.lawful
  have hevaluate : Measurement.Evaluate [pin, step] s := by
    refine ⟨by decide, by simp [s, Assignment.IsVector, Kind.line, Kind.IsVector], fun m hm => ?_⟩
    rcases List.mem_cons.1 hm with rfl | hm
    · exact ⟨_, rfl, List.cons_ne_nil _ _⟩
    · rw [List.mem_singleton.1 hm]
      exact ⟨_, rfl, List.cons_ne_nil _ _⟩
  obtain ⟨out, hout⟩ := exists_minimize hevaluate settings
  exact ⟨hperm, hlawful, out, hout, (minimize_perm hperm hlawful settings s out).1 hout⟩

end Minimizer

end LeastSquares
