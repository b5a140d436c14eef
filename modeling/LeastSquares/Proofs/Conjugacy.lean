import LeastSquares.Proofs.ConjugateGradients
import Mathlib.Algebra.Order.BigOperators.Ring.Finset
import Mathlib.LinearAlgebra.Matrix.DotProduct
import Mathlib.LinearAlgebra.Matrix.Rank

/-!
# Conjugacy of search directions

What holds between two steps of conjugate gradients, in exact arithmetic (`Search.Conjugate`). The
directions searched so far span a space `U` of the row space of the matrix. The normal residual is
orthogonal to `U`, the direction is conjugate to it, and one application of the matrix of the
normal equations leads from `U` at most to `U` and the normal residual. From this alone follows that
the method cannot break down (`Conjugate.product_ne_zero`), and a step preserves it, the space
growing by the normal residual (`Conjugate.next`).
-/

open scoped Matrix

namespace LeastSquares

variable {K : Type} {m n : Nat}

/-! ## Orthogonality -/

/-- Orthogonality to a direction and to a space is orthogonality to both together. -/
theorem dotProduct_eq_zero_of_mem_sup [CommRing K] {U : Submodule K (Fin n → K)}
    {s p v : Fin n → K} (hU : ∀ u ∈ U, s ⬝ᵥ u = 0) (hp : s ⬝ᵥ p = 0)
    (hv : v ∈ U ⊔ Submodule.span K {p}) : s ⬝ᵥ v = 0 := by
  obtain ⟨u, hu, w, hw, rfl⟩ := Submodule.mem_sup.1 hv
  obtain ⟨c, rfl⟩ := Submodule.mem_span_singleton.1 hw
  rw [dotProduct_add, dotProduct_smul, hU u hu, hp, smul_zero, add_zero]

/-- A space is extended alike by two vectors that differ by one of its own. -/
theorem sup_span_eq_of_sub_mem [Ring K] {U : Submodule K (Fin n → K)} {p s : Fin n → K}
    (h : p - s ∈ U) : U ⊔ Submodule.span K {p} = U ⊔ Submodule.span K {s} := by
  have hle : ∀ {p s : Fin n → K}, p - s ∈ U →
      U ⊔ Submodule.span K {p} ≤ U ⊔ Submodule.span K {s} := by
    intro p s h
    refine sup_le le_sup_left ((Submodule.span_singleton_le_iff_mem _ _).2 ?_)
    have hs : s ∈ U ⊔ Submodule.span K {s} :=
      Submodule.mem_sup_right (Submodule.mem_span_singleton_self s)
    simpa using add_mem (Submodule.mem_sup_left h) hs
  exact le_antisymm (hle h) (hle (by simpa using neg_mem h))

namespace Search

/-- What holds between two steps from `x₀`, the directions searched so far spanning `U`. -/
structure Conjugate [Field K] (M : Matrix (Fin m) (Fin n) K) (b : Fin m → K) (x₀ : Fin n → K)
    (U : Submodule K (Fin n → K)) (σ : Search m n K) : Prop where
  residual : σ.r = b - M *ᵥ σ.x
  normal : σ.s = Mᵀ *ᵥ σ.r
  gamma_eq : σ.gamma = σ.s ⬝ᵥ σ.s
  moved : σ.x - x₀ ∈ U
  turned : σ.p - σ.s ∈ U
  rowSpace : U ≤ (Mᵀ).mulVecLin.range
  orthogonal : ∀ u ∈ U, σ.s ⬝ᵥ u = 0
  conjugate : ∀ u ∈ U, M *ᵥ σ.p ⬝ᵥ M *ᵥ u = 0
  krylov : ∀ u ∈ U, Mᵀ *ᵥ (M *ᵥ u) ∈ U ⊔ Submodule.span K {σ.s}

section
variable [Field K] {M : Matrix (Fin m) (Fin n) K} {b : Fin m → K} {x₀ : Fin n → K}
  {U : Submodule K (Fin n → K)} {σ : Search m n K}

/-- The start of a run, before any direction is searched. -/
theorem Conjugate.start (M : Matrix (Fin m) (Fin n) K) (b : Fin m → K) (x₀ : Fin n → K) :
    Conjugate M b x₀ ⊥ (Search.start M b x₀) where
  residual := rfl
  normal := rfl
  gamma_eq := rfl
  moved := by simp [Search.start]
  turned := by simp [Search.start]
  rowSpace := bot_le
  orthogonal u hu := by simp [(Submodule.mem_bot K).1 hu]
  conjugate u hu := by simp [(Submodule.mem_bot K).1 hu]
  krylov u hu := by simp [(Submodule.mem_bot K).1 hu]

namespace Conjugate

/-- The direction is as long along the normal residual as the normal residual itself. -/
theorem normal_dotProduct (h : Conjugate M b x₀ U σ) : σ.s ⬝ᵥ σ.p = σ.gamma := by
  have hturn := h.orthogonal _ h.turned
  rw [dotProduct_sub, sub_eq_zero] at hturn
  rw [hturn, h.gamma_eq]

/-- The space after the next step, spanned by the direction as well as by the normal residual. -/
theorem sup_span_eq (h : Conjugate M b x₀ U σ) :
    U ⊔ Submodule.span K {σ.p} = U ⊔ Submodule.span K {σ.s} := sup_span_eq_of_sub_mem h.turned

theorem p_mem (h : Conjugate M b x₀ U σ) : σ.p ∈ U ⊔ Submodule.span K {σ.s} := by
  rw [← h.sup_span_eq]
  exact Submodule.mem_sup_right (Submodule.mem_span_singleton_self _)

/-- The space after the next step is a part of the row space. -/
theorem sup_le_rowSpace (h : Conjugate M b x₀ U σ) :
    U ⊔ Submodule.span K {σ.s} ≤ (Mᵀ).mulVecLin.range := by
  refine sup_le h.rowSpace ((Submodule.span_singleton_le_iff_mem _ _).2 ?_)
  rw [h.normal]
  exact ⟨σ.r, rfl⟩

/-- The next normal residual, by recurrence. -/
theorem next_s (h : Conjugate M b x₀ U σ) :
    (σ.next M).s = σ.s - σ.alpha M • (Mᵀ *ᵥ (M *ᵥ σ.p)) := by
  rw [h.normal]
  simp only [Search.next, Matrix.mulVec_sub, Matrix.mulVec_smul]

/-- The space grows with every step. -/
theorem finrank_lt (h : Conjugate M b x₀ U σ) (hγ : σ.gamma ≠ 0) :
    Module.finrank K U < Module.finrank K ↥(U ⊔ Submodule.span K {σ.s}) := by
  refine Submodule.finrank_lt_finrank_of_lt (lt_of_le_of_ne le_sup_left fun heq => hγ ?_)
  have hs : σ.s ∈ U := by
    rw [heq]
    exact Submodule.mem_sup_right (Submodule.mem_span_singleton_self _)
  rw [h.gamma_eq, h.orthogonal _ hs]

end Conjugate

end

/-! ## One step -/

section
variable [Field K] [LinearOrder K] [IsStrictOrderedRing K] {M : Matrix (Fin m) (Fin n) K}
  {b : Fin m → K} {x₀ : Fin n → K} {U : Submodule K (Fin n → K)} {σ : Search m n K}

namespace Conjugate

/-- The matrix does not take the direction to zero while the normal residual is not zero. -/
theorem product_ne_zero (h : Conjugate M b x₀ U σ) (hγ : σ.gamma ≠ 0) :
    M *ᵥ σ.p ⬝ᵥ M *ᵥ σ.p ≠ 0 := by
  intro hq
  have hp : M *ᵥ σ.p = 0 := dotProduct_self_eq_zero.1 hq
  apply hγ
  rw [← h.normal_dotProduct, h.normal, transpose_mulVec_dotProduct, hp, dotProduct_zero]

/-- The step is the exact minimum along the direction. -/
theorem alpha_mul (h : Conjugate M b x₀ U σ) (hγ : σ.gamma ≠ 0) :
    σ.alpha M * (M *ᵥ σ.p ⬝ᵥ M *ᵥ σ.p) = σ.gamma :=
  div_mul_cancel₀ _ (h.product_ne_zero hγ)

theorem alpha_ne_zero (h : Conjugate M b x₀ U σ) (hγ : σ.gamma ≠ 0) : σ.alpha M ≠ 0 :=
  div_ne_zero hγ (h.product_ne_zero hγ)

/-- The next normal residual is orthogonal to the space after the step. -/
theorem next_orthogonal (h : Conjugate M b x₀ U σ) (hγ : σ.gamma ≠ 0) {v : Fin n → K}
    (hv : v ∈ U ⊔ Submodule.span K {σ.s}) : (σ.next M).s ⬝ᵥ v = 0 := by
  have hdot : ∀ v, (σ.next M).s ⬝ᵥ v = σ.s ⬝ᵥ v - σ.alpha M * (M *ᵥ σ.p ⬝ᵥ M *ᵥ v) := by
    intro v
    rw [h.next_s, sub_dotProduct, smul_dotProduct, smul_eq_mul, transpose_mulVec_dotProduct]
  rw [← h.sup_span_eq] at hv
  refine dotProduct_eq_zero_of_mem_sup (fun u hu => ?_) ?_ hv
  · rw [hdot, h.orthogonal u hu, h.conjugate u hu, mul_zero, sub_zero]
  · rw [hdot, h.normal_dotProduct, h.alpha_mul hγ, sub_self]

/-- The matrix of the normal equations leads from the direction to the two normal residuals. -/
theorem normal_product (h : Conjugate M b x₀ U σ) (hγ : σ.gamma ≠ 0) :
    Mᵀ *ᵥ (M *ᵥ σ.p) = (σ.alpha M)⁻¹ • (σ.s - (σ.next M).s) := by
  rw [h.next_s, sub_sub_cancel, inv_smul_smul₀ (h.alpha_ne_zero hγ)]

/-- The next direction is conjugate to the space after the step. -/
theorem next_conjugate (h : Conjugate M b x₀ U σ) (hγ : σ.gamma ≠ 0) {v : Fin n → K}
    (hv : v ∈ U ⊔ Submodule.span K {σ.s}) : M *ᵥ (σ.next M).p ⬝ᵥ M *ᵥ v = 0 := by
  have hdot : ∀ v, M *ᵥ (σ.next M).p ⬝ᵥ M *ᵥ v = (σ.next M).s ⬝ᵥ Mᵀ *ᵥ (M *ᵥ v) +
      ((σ.next M).gamma / σ.gamma) * (M *ᵥ σ.p ⬝ᵥ M *ᵥ v) := by
    intro v
    have hp : (σ.next M).p = (σ.next M).s + ((σ.next M).gamma / σ.gamma) • σ.p := rfl
    rw [hp, Matrix.mulVec_add, Matrix.mulVec_smul, add_dotProduct, smul_dotProduct, smul_eq_mul,
      mulVec_dotProduct]
  rw [← h.sup_span_eq] at hv
  rw [← transpose_mulVec_dotProduct]
  refine dotProduct_eq_zero_of_mem_sup (fun u hu => ?_) ?_ hv
  · rw [transpose_mulVec_dotProduct, hdot, h.next_orthogonal hγ (h.krylov u hu), h.conjugate u hu,
      mul_zero, add_zero]
  · have hs : (σ.next M).s ⬝ᵥ σ.s = 0 :=
      h.next_orthogonal hγ (Submodule.mem_sup_right (Submodule.mem_span_singleton_self _))
    have hα := h.alpha_ne_zero hγ
    rw [transpose_mulVec_dotProduct, hdot, h.normal_product hγ, dotProduct_smul, dotProduct_sub, hs,
      smul_eq_mul, zero_sub, mul_neg, div_mul_eq_mul_div, ← h.alpha_mul hγ]
    have hq := h.product_ne_zero hγ
    have hgamma : (σ.next M).gamma = (σ.next M).s ⬝ᵥ (σ.next M).s := rfl
    rw [hgamma, mul_div_mul_right _ _ hq, inv_mul_eq_div, neg_add_cancel]

/-- A step preserves what holds between two steps, and the space grows by the normal residual. -/
theorem next (h : Conjugate M b x₀ U σ) (hγ : σ.gamma ≠ 0) :
    Conjugate M b x₀ (U ⊔ Submodule.span K {σ.s}) (σ.next M) where
  residual := by
    have hr : (σ.next M).r = σ.r - σ.alpha M • (M *ᵥ σ.p) := rfl
    have hx : (σ.next M).x = σ.x + σ.alpha M • σ.p := rfl
    rw [hr, hx, h.residual, Matrix.mulVec_add, Matrix.mulVec_smul, sub_add_eq_sub_sub]
  normal := rfl
  gamma_eq := rfl
  moved := by
    have hx : (σ.next M).x - x₀ = (σ.x - x₀) + σ.alpha M • σ.p := by
      simp only [Search.next]
      abel
    rw [hx]
    exact add_mem (Submodule.mem_sup_left h.moved) (Submodule.smul_mem _ _ h.p_mem)
  turned := by
    have hp : (σ.next M).p - (σ.next M).s = ((σ.next M).gamma / σ.gamma) • σ.p :=
      add_sub_cancel_left _ _
    rw [hp]
    exact Submodule.smul_mem _ _ h.p_mem
  rowSpace := h.sup_le_rowSpace
  orthogonal _ hv := h.next_orthogonal hγ hv
  conjugate _ hv := h.next_conjugate hγ hv
  krylov v hv := by
    rw [← h.sup_span_eq] at hv
    obtain ⟨u, hu, w, hw, rfl⟩ := Submodule.mem_sup.1 hv
    obtain ⟨c, rfl⟩ := Submodule.mem_span_singleton.1 hw
    have hs : σ.s - (σ.next M).s ∈
        U ⊔ Submodule.span K {σ.s} ⊔ Submodule.span K {(σ.next M).s} :=
      sub_mem (Submodule.mem_sup_left
          (Submodule.mem_sup_right (Submodule.mem_span_singleton_self _)))
        (Submodule.mem_sup_right (Submodule.mem_span_singleton_self _))
    rw [Matrix.mulVec_add, Matrix.mulVec_add, Matrix.mulVec_smul, Matrix.mulVec_smul,
      h.normal_product hγ]
    exact add_mem (Submodule.mem_sup_left (h.krylov u hu))
      (Submodule.smul_mem _ _ (Submodule.smul_mem _ _ hs))

end Conjugate

end

end Search

end LeastSquares
