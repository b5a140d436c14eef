import LeastSquares.Proofs.Manifolds
import Mathlib.Analysis.SpecialFunctions.Log.Basic
import Mathlib.Analysis.SpecialFunctions.Sqrt

/-!
# Exact arithmetic

The real numbers have the functions that residuals and stopping tests call on. What the tests rely
on in exact arithmetic is that every number is finite (`isFinite_eq_true`) and that lengths are
Euclidean (`LawfulNorm`). The positive numbers move along every number, and along zero they stay in
place (`Variable.move_zero_positive`).
-/

namespace LeastSquares

/-- In exact arithmetic every number is finite. -/
@[simp] theorem isFinite_eq_true {K : Type} [AddGroup K] [DecidableEq K] (x : K) :
    isFinite x = true := by
  simp [isFinite]

/-- Lengths are not negative, and their squares are sums of squares. -/
class LawfulNorm (K : Type) [Zero K] [Add K] [Mul K] [LE K] [Elementary K] : Prop where
  norm_nonneg : ∀ xs : List K, 0 ≤ Elementary.norm xs
  norm_mul_self : ∀ xs : List K, Elementary.norm xs * Elementary.norm xs = Dense.normSq xs

noncomputable instance : Elementary ℝ where
  sqrt := Real.sqrt
  exp := Real.exp
  log := Real.log
  norm xs := Real.sqrt (Dense.normSq xs)
  named := Manifolds.positiveNumbers Real.exp Real.log

instance : LawfulNorm ℝ where
  norm_nonneg _ := Real.sqrt_nonneg _
  norm_mul_self xs := by
    refine Real.mul_self_sqrt (List.sum_nonneg fun x hx => ?_)
    rw [List.zipWith_self] at hx
    obtain ⟨y, -, rfl⟩ := List.mem_map.1 hx
    exact mul_self_nonneg y

theorem Kind.positive_accepting : Kind.positive.Accepting ℝ :=
  Manifold.positive_accepting Real.exp Real.log

theorem Kind.positive_uniform : Kind.positive.Uniform ℝ :=
  Manifold.positive_uniform Real.exp Real.log

/-- Along zero a positive number stays in place. -/
theorem Variable.move_zero_positive {x : Variable ℝ} (hx : x.kind = .positive) :
    x.move (.ofList (List.replicate x.kind.dimension 0)) = .ok x := by
  obtain ⟨kind, coordinates, admits⟩ := x
  obtain rfl : kind = .positive := hx
  obtain ⟨motion, hmotion, hcoordinates⟩ :=
    Manifold.positive_move_zero Real.log Real.exp_zero coordinates
  have hmoved : moved ⟨.positive, coordinates, admits⟩ (.ofList [0]) = .ok coordinates :=
    bind_eq_ok.2 ⟨motion, hmotion, congrArg Except.ok hcoordinates⟩
  exact bind_eq_ok.2 ⟨coordinates, hmoved, dif_pos admits⟩

end LeastSquares
