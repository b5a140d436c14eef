import LeastSquares.Proofs.ConjugateGradients
import LeastSquares.Proofs.Stacking
import Mathlib.LinearAlgebra.Matrix.DotProduct

/-!
# Systems with the same normal equations

Conjugate gradients see a system only through its normal equations: the inner products of the
columns with each other (`SameGram`) and with the right-hand side (`SameMoment`). Where two systems
agree on these, the unknowns of one being those of the other in another order, their runs go hand in
hand, whatever the rows are: vectors of unknowns correspond by the order, the residuals have the
same inner products with the columns, and every number is the same (`Search.Follows`). So the runs
take the same number of steps and end for the same reason (`Search.Follows.run`), and the solver
finds the same solution of two linear models (`LinearModel.SameNormal.solve`).
-/

open scoped Matrix

namespace LeastSquares

variable {K : Type} {m₁ m₂ n₁ n₂ : Nat}

section
variable [Field K] {M₁ : Matrix (Fin m₁) (Fin n₁) K} {M₂ : Matrix (Fin m₂) (Fin n₂) K}
  {e : Fin n₂ ≃ Fin n₁} {b₁ : Fin m₁ → K} {b₂ : Fin m₂ → K} {r₁ : Fin m₁ → K} {r₂ : Fin m₂ → K}

/-- Two matrices whose columns, one in the order of the other, have the same inner products. -/
def SameGram (M₁ : Matrix (Fin m₁) (Fin n₁) K) (M₂ : Matrix (Fin m₂) (Fin n₂) K)
    (e : Fin n₂ ≃ Fin n₁) : Prop :=
  ∀ v w, M₂ *ᵥ (v ∘ e) ⬝ᵥ M₂ *ᵥ (w ∘ e) = M₁ *ᵥ v ⬝ᵥ M₁ *ᵥ w

/-- Two vectors that have the same inner products with the columns of two matrices. -/
def SameMoment (M₁ : Matrix (Fin m₁) (Fin n₁) K) (M₂ : Matrix (Fin m₂) (Fin n₂) K)
    (e : Fin n₂ ≃ Fin n₁) (r₁ : Fin m₁ → K) (r₂ : Fin m₂ → K) : Prop :=
  ∀ v, r₂ ⬝ᵥ M₂ *ᵥ (v ∘ e) = r₁ ⬝ᵥ M₁ *ᵥ v

/-- Products with the transposed matrices correspond. -/
theorem SameMoment.transpose_mulVec (h : SameMoment M₁ M₂ e r₁ r₂) :
    M₂ᵀ *ᵥ r₂ = (M₁ᵀ *ᵥ r₁) ∘ e := by
  refine dotProduct_eq _ _ fun w => ?_
  have hw : w = (w ∘ e.symm) ∘ e := by
    rw [Function.comp_assoc, Equiv.symm_comp_self, Function.comp_id]
  rw [hw, comp_equiv_dotProduct_comp_equiv, transpose_mulVec_dotProduct,
    transpose_mulVec_dotProduct, h]

/-- What is left of corresponding residuals after a step along corresponding directions. -/
theorem SameMoment.sub_smul (h : SameMoment M₁ M₂ e r₁ r₂) (hgram : SameGram M₁ M₂ e) (c : K)
    (p : Fin n₁ → K) :
    SameMoment M₁ M₂ e (r₁ - c • (M₁ *ᵥ p)) (r₂ - c • (M₂ *ᵥ (p ∘ e))) := by
  intro v
  rw [sub_dotProduct, sub_dotProduct, smul_dotProduct, smul_dotProduct, h v, hgram p v]

namespace Search

variable {σ₁ : Search m₁ n₁ K} {σ₂ : Search m₂ n₂ K}

/-- Two states of the method that agree but for the order of the unknowns. -/
structure Follows (M₁ : Matrix (Fin m₁) (Fin n₁) K) (M₂ : Matrix (Fin m₂) (Fin n₂) K)
    (e : Fin n₂ ≃ Fin n₁) (σ₁ : Search m₁ n₁ K) (σ₂ : Search m₂ n₂ K) : Prop where
  x_eq : σ₂.x = σ₁.x ∘ e
  r_eq : SameMoment M₁ M₂ e σ₁.r σ₂.r
  s_eq : σ₂.s = σ₁.s ∘ e
  p_eq : σ₂.p = σ₁.p ∘ e
  gamma_eq : σ₂.gamma = σ₁.gamma
  steps_eq : σ₂.steps = σ₁.steps

/-- Starting points that correspond. -/
theorem Follows.start (hgram : SameGram M₁ M₂ e) (hb : SameMoment M₁ M₂ e b₁ b₂)
    (x : Fin n₁ → K) : Follows M₁ M₂ e (start M₁ b₁ x) (Search.start M₂ b₂ (x ∘ e)) := by
  have hr : SameMoment M₁ M₂ e (b₁ - M₁ *ᵥ x) (b₂ - M₂ *ᵥ (x ∘ e)) := by
    have hstep := hb.sub_smul hgram 1 x
    rwa [one_smul, one_smul] at hstep
  have hs := hr.transpose_mulVec
  refine ⟨rfl, hr, hs, hs, ?_, rfl⟩
  change (M₂ᵀ *ᵥ _) ⬝ᵥ (M₂ᵀ *ᵥ _) = _
  rw [hs, comp_equiv_dotProduct_comp_equiv]
  rfl

namespace Follows

theorem product_eq (h : Follows M₁ M₂ e σ₁ σ₂) (hgram : SameGram M₁ M₂ e) :
    M₂ *ᵥ σ₂.p ⬝ᵥ M₂ *ᵥ σ₂.p = M₁ *ᵥ σ₁.p ⬝ᵥ M₁ *ᵥ σ₁.p := by
  rw [h.p_eq, hgram]

theorem alpha_eq (h : Follows M₁ M₂ e σ₁ σ₂) (hgram : SameGram M₁ M₂ e) :
    σ₂.alpha M₂ = σ₁.alpha M₁ := by
  rw [alpha, alpha, h.gamma_eq, h.product_eq hgram]

/-- A step keeps states together. -/
theorem next (h : Follows M₁ M₂ e σ₁ σ₂) (hgram : SameGram M₁ M₂ e) :
    Follows M₁ M₂ e (σ₁.next M₁) (σ₂.next M₂) := by
  have hr : SameMoment M₁ M₂ e (σ₁.next M₁).r (σ₂.next M₂).r := by
    change SameMoment M₁ M₂ e _ (σ₂.r - σ₂.alpha M₂ • (M₂ *ᵥ σ₂.p))
    rw [h.alpha_eq hgram, h.p_eq]
    exact h.r_eq.sub_smul hgram (σ₁.alpha M₁) σ₁.p
  have hs : (σ₂.next M₂).s = (σ₁.next M₁).s ∘ e := hr.transpose_mulVec
  have hgamma : (σ₂.next M₂).gamma = (σ₁.next M₁).gamma := by
    change (σ₂.next M₂).s ⬝ᵥ (σ₂.next M₂).s = _
    rw [hs, comp_equiv_dotProduct_comp_equiv]
    rfl
  refine ⟨?_, hr, hs, ?_, hgamma, congrArg (· + 1) h.steps_eq⟩
  · change σ₂.x + σ₂.alpha M₂ • σ₂.p = _
    rw [h.x_eq, h.alpha_eq hgram, h.p_eq]
    rfl
  · change (σ₂.next M₂).s + ((σ₂.next M₂).gamma / σ₂.gamma) • σ₂.p = _
    rw [hs, hgamma, h.gamma_eq, h.p_eq]
    rfl

theorem movement_eq (h : Follows M₁ M₂ e σ₁ σ₂) (hgram : SameGram M₁ M₂ e) :
    σ₂.movement M₂ = σ₁.movement M₁ := by
  have hp := (h.next hgram).p_eq
  rw [movement, movement, h.alpha_eq hgram, hp, smul_dotProduct, smul_dotProduct, dotProduct_smul,
    dotProduct_smul, comp_equiv_dotProduct_comp_equiv]

end Follows

variable [LinearOrder K]

/-- Runs from corresponding states end at corresponding states, for the same reason. -/
theorem Follows.run (hgram : SameGram M₁ M₂ e) (precision : K) (budget : Nat)
    (h : Follows M₁ M₂ e σ₁ σ₂) :
    Follows M₁ M₂ e (run M₁ precision budget σ₁).last (Search.run M₂ precision budget σ₂).last ∧
      (Search.run M₂ precision budget σ₂).ending = (Search.run M₁ precision budget σ₁).ending := by
  induction budget generalizing σ₁ σ₂ with
  | zero => exact ⟨h, rfl⟩
  | succ budget ih =>
    have hnext := h.next hgram
    rw [Search.run, Search.run, h.product_eq hgram, h.movement_eq hgram, hnext.gamma_eq]
    split
    · exact ⟨h, rfl⟩
    · split
      · exact ⟨hnext, rfl⟩
      · split
        · exact ⟨hnext, rfl⟩
        · exact ih hnext

/-- Runs from corresponding starting points end at corresponding states, for the same reason. -/
theorem solve_follows (hgram : SameGram M₁ M₂ e) (hb : SameMoment M₁ M₂ e b₁ b₂) (precision : K)
    (budget : Nat) (x : Fin n₁ → K) :
    Follows M₁ M₂ e (solve M₁ precision budget b₁ x).last
        (solve M₂ precision budget b₂ (x ∘ e)).last ∧
      (solve M₂ precision budget b₂ (x ∘ e)).ending = (solve M₁ precision budget b₁ x).ending := by
  have hstart := Follows.start hgram hb x
  rw [solve, solve, hstart.gamma_eq]
  split
  · exact ⟨hstart, rfl⟩
  · exact hstart.run hgram precision budget

end Search

end

/-! ## Linear models -/

namespace LinearModel

/-- A regular model over a tangent space of `n` dimensions. -/
structure Over (model : LinearModel K) (n : Nat) : Prop where
  regular : model.Regular
  columns_le : model.matrix.columns ≤ n

/-- Two models with the same normal equations but for the order of the columns. -/
structure SameNormal [NonUnitalNonAssocSemiring K] (model₁ model₂ : LinearModel K)
    (e : Fin n₂ ≃ Fin n₁) : Prop where
  gram : ∀ v w : Fin n₁ → K, Dense.dot (model₂.product (v ∘ e)) (model₂.product (w ∘ e)) =
    Dense.dot (model₁.product v) (model₁.product w)
  moment : ∀ v : Fin n₁ → K, Dense.dot model₂.target (model₂.product (v ∘ e)) =
    Dense.dot model₁.target (model₁.product v)

variable {model model₁ model₂ : LinearModel K} {n : Nat}

theorem Over.rows_le (h : model.Over n) : model.matrix.rows ≤ model.height := by
  have hd := h.regular.bias.dimension_nonneg
  have hle := h.regular.rows_le
  rw [height]
  omega

section
variable [Field K] {e : Fin n₂ ≃ Fin n₁}

/-- The matrix of a model, with as many rows as its bias has entries. -/
def toMatrix (model : LinearModel K) (n : Nat) : Matrix (Fin model.height) (Fin n) K :=
  model.matrix.toMatrix _ _

/-- The bias of a model as a vector. -/
def toVector (model : LinearModel K) : Fin model.height → K := fun i => model.bias.entry (i : Nat)

theorem dot_product (model : LinearModel K) (v w : Fin n → K) :
    Dense.dot (model.product v) (model.product w) =
      model.toMatrix n *ᵥ v ⬝ᵥ model.toMatrix n *ᵥ w := Dense.dot_ofFn _ _

theorem dot_target_product (model : LinearModel K) (v : Fin n → K) :
    Dense.dot model.target (model.product v) = model.toVector ⬝ᵥ model.toMatrix n *ᵥ v :=
  Dense.dot_ofFn _ _

/-- What a model has for its residual is, negated, what the method has. -/
theorem normSq_residual (model : LinearModel K) (v : Fin n → K) :
    Dense.normSq (model.residual v) =
      (model.toVector - model.toMatrix n *ᵥ v) ⬝ᵥ (model.toVector - model.toMatrix n *ᵥ v) := by
  have hsub : model.residual v = List.ofFn (model.toMatrix n *ᵥ v - model.toVector) :=
    Dense.sub_ofFn _ _
  rw [hsub, Dense.normSq_ofFn, ← neg_sub, neg_dotProduct_neg]

theorem SameNormal.sameGram (h : SameNormal model₁ model₂ e) :
    SameGram (model₁.toMatrix n₁) (model₂.toMatrix n₂) e := by
  intro v w
  rw [← dot_product, ← dot_product, h.gram]

theorem SameNormal.sameMoment (h : SameNormal model₁ model₂ e) :
    SameMoment (model₁.toMatrix n₁) (model₂.toMatrix n₂) e model₁.toVector model₂.toVector := by
  intro v
  rw [← dot_target_product, ← dot_target_product, h.moment]

/-- The gradient at a model is as long as the transposed matrix makes the bias. -/
theorem Over.adjoint_eq (h : model.Over n) :
    ∃ gradient, model.matrix.adjoint (.sparse model.bias) = .ok gradient ∧
      Dense.normSq gradient =
        ((model.toMatrix n)ᵀ *ᵥ model.toVector) ⬝ᵥ ((model.toMatrix n)ᵀ *ᵥ model.toVector) := by
  have hbias : (Operand.sparse model.bias).resolve model.matrix.rows =
      .ok (List.ofFn model.toVector) := h.regular.level.resolve_bias
  refine ⟨_, h.regular.matrix.adjoint_eq hbias h.rows_le, ?_⟩
  rw [Dense.normSq_ofFn]
  -- behind its columns the matrix has no entries
  refine sum_fin_eq_sum_fin (k := model.matrix.columns.toNat) (g := fun j =>
    (∑ i : Fin model.height, model.matrix.entry (i : Nat) j * model.toVector i) *
      ∑ i : Fin model.height, model.matrix.entry (i : Nat) j * model.toVector i)
    (fun j hj => ?_) le_rfl (Int.toNat_le.2 h.columns_le)
  have hzero : ∑ i : Fin model.height, model.matrix.entry (i : Nat) j * model.toVector i = 0 := by
    refine Finset.sum_eq_zero fun i _ => ?_
    rw [h.regular.matrix.entry_eq_zero (by omega), zero_mul]
  rw [hzero, zero_mul]

/-- Gradients at models with the same normal equations are equally long. -/
theorem SameNormal.adjoint (h : SameNormal model₁ model₂ e)
    (h₁ : model₁.Over n₁) (h₂ : model₂.Over n₂) :
    ∃ gradient₁ gradient₂,
      model₁.matrix.adjoint (.sparse model₁.bias) = .ok gradient₁ ∧
      model₂.matrix.adjoint (.sparse model₂.bias) = .ok gradient₂ ∧
      Dense.normSq gradient₂ = Dense.normSq gradient₁ := by
  obtain ⟨gradient₁, hgradient₁, hnorm₁⟩ := h₁.adjoint_eq
  obtain ⟨gradient₂, hgradient₂, hnorm₂⟩ := h₂.adjoint_eq
  refine ⟨gradient₁, gradient₂, hgradient₁, hgradient₂, ?_⟩
  rw [hnorm₁, hnorm₂, h.sameMoment.transpose_mulVec, comp_equiv_dotProduct_comp_equiv]

variable [LinearOrder K]

/-- The solver on a model, from zero, is the method. -/
theorem Over.solve_eq (h : model.Over n) (settings : LinearSettings K) :
    settings.solve model.matrix (.sparse model.bias) (.ofList (List.replicate n 0)) =
      .ok ((Search.solve (model.toMatrix n) settings.precision settings.maxIterations.toNat
        model.toVector 0).toSolution (model.toMatrix n)) := by
  have hbias : (Operand.sparse model.bias).rightHandSide model.matrix.rows =
      .ok (.ofList (List.ofFn model.toVector)) := h.regular.level.rightHandSide_bias
  rw [replicate_eq_ofFn]
  exact settings.solve_eq h.regular.matrix hbias h.rows_le h.columns_le 0

/-- The solver on models with the same normal equations finds the same solution but for the order of
the unknowns, within as many steps. -/
theorem SameNormal.solve (h : SameNormal model₁ model₂ e)
    (h₁ : model₁.Over n₁) (h₂ : model₂.Over n₂) (settings : LinearSettings K) :
    ∃ (out₁ out₂ : Solution K) (y : Fin n₁ → K),
      settings.solve model₁.matrix (.sparse model₁.bias) (.ofList (List.replicate n₁ 0)) =
        .ok out₁ ∧
      settings.solve model₂.matrix (.sparse model₂.bias) (.ofList (List.replicate n₂ 0)) =
        .ok out₂ ∧
      out₁.last.x = List.ofFn y ∧ out₂.last.x = List.ofFn (y ∘ e) ∧
      out₂.last.steps = out₁.last.steps := by
  obtain ⟨hlast, -⟩ := Search.solve_follows h.sameGram h.sameMoment settings.precision
    settings.maxIterations.toNat 0
  exact ⟨_, _, _, h₁.solve_eq _, h₂.solve_eq _, rfl, congrArg List.ofFn hlast.x_eq, hlast.steps_eq⟩

end

end LinearModel

/-! ## Stacked models -/

namespace Graph.Stack.Holds

variable [CommSemiring K] {stack : Stack K} {models : List (LinearModel K)}

theorem dot_product (h : stack.Holds models) {n : Nat} (v w : Fin n → K) :
    Dense.dot (stack.model.product v) (stack.model.product w) =
      (models.map fun model => Dense.dot (model.product v) (model.product w)).sum := by
  rw [h.product_eq, h.product_eq, Dense.dot_flatten]
  exact fun model => by rw [LinearModel.length_product, LinearModel.length_product]

theorem dot_target (h : stack.Holds models) {n : Nat} (v : Fin n → K) :
    Dense.dot stack.model.target (stack.model.product v) =
      (models.map fun model => Dense.dot model.target (model.product v)).sum := by
  rw [h.target_eq, h.product_eq, Dense.dot_flatten]
  exact fun model => by rw [LinearModel.length_target, LinearModel.length_product]

end Graph.Stack.Holds

/-- The linear model of a graph is over the tangent space that the models of its factors are over.
-/
theorem Graph.linearize_over [CommSemiring K] {g : Graph K} {s : Assignment K}
    {models : List (LinearModel K)}
    (h : List.Forall₂ (fun f model => f.linearize s = .ok model) g.factors models)
    (hover : ∀ model ∈ models, model.Over s.dimension) :
    ∃ stack : Stack K, g.linearize s = .ok stack.model ∧ stack.Holds models ∧
      stack.model.Over s.dimension := by
  obtain ⟨stack, hstack, hholds⟩ := linearize_holds h fun model hm => (hover model hm).regular
  exact ⟨stack, hstack, hholds, hholds.regular,
    hholds.columns_le (Int.natCast_nonneg _) fun model hm => (hover model hm).columns_le⟩

end LeastSquares
