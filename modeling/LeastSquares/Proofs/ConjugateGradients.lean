import LeastSquares.LinearSolver
import LeastSquares.Proofs.Products

/-!
# Conjugate gradients on vectors

The method of conjugate gradients for least squares is written here as in a textbook: its state
holds vectors (`Search`), a step is a few vector operations (`Search.next`), and a run ends by the
tests of the method (`Search.run`). The solver of the library is this method for the matrix of
entries: on a regular matrix and axes that it does not exceed, products are products with the matrix
of entries (`LinearSystem.forward_ofFn`, `LinearSystem.adjoint_ofFn`), a step is a step
(`LinearSystem.advance_eq`), a run is a run (`LinearSystem.run_eq`), and so the outcome of the
solver is the one of the method (`LinearSettings.solve_eq`). In particular the solver refuses
nothing once the lengths fit.
-/

open scoped Matrix

namespace LeastSquares

variable {K : Type} {m n : Nat}

/-! ## The method -/

/-- The state of the method between two steps. -/
structure Search (m n : Nat) (K : Type) where
  /-- The unknown. -/
  x : Fin n → K
  /-- The residual. -/
  r : Fin m → K
  /-- The normal residual. -/
  s : Fin n → K
  /-- The direction of the next step. -/
  p : Fin n → K
  /-- The squared length of the normal residual. -/
  gamma : K
  /-- The number of steps taken. -/
  steps : Nat

/-- A run of the method that ended. -/
structure SearchRun (m n : Nat) (K : Type) where
  /-- The last state. -/
  last : Search m n K
  /-- Why the run ended. -/
  ending : Ending
  /-- The states that a step was taken from, in order. -/
  visited : List (Search m n K)

namespace Search

section
variable [Field K]

/-- The state at a starting point. -/
def start (M : Matrix (Fin m) (Fin n) K) (b : Fin m → K) (x : Fin n → K) : Search m n K :=
  let r := b - M *ᵥ x
  let s := Mᵀ *ᵥ r
  ⟨x, r, s, s, s ⬝ᵥ s, 0⟩

/-- How far a step goes along its direction. -/
def alpha (M : Matrix (Fin m) (Fin n) K) (σ : Search m n K) : K :=
  σ.gamma / (M *ᵥ σ.p ⬝ᵥ M *ᵥ σ.p)

/-- The state behind a step. -/
def next (M : Matrix (Fin m) (Fin n) K) (σ : Search m n K) : Search m n K :=
  let r := σ.r - σ.alpha M • (M *ᵥ σ.p)
  let s := Mᵀ *ᵥ r
  ⟨σ.x + σ.alpha M • σ.p, r, s, s + (s ⬝ᵥ s / σ.gamma) • σ.p, s ⬝ᵥ s, σ.steps + 1⟩

/-- The squared length of the new direction, taken as far as the step went. -/
def movement (M : Matrix (Fin m) (Fin n) K) (σ : Search m n K) : K :=
  σ.alpha M • (σ.next M).p ⬝ᵥ σ.alpha M • (σ.next M).p

variable [LinearOrder K]

/-- Takes up to `budget` steps. -/
def run (M : Matrix (Fin m) (Fin n) K) (precision : K) : Nat → Search m n K → SearchRun m n K
  | 0, σ => ⟨σ, .exhausted, []⟩
  | budget + 1, σ =>
    if M *ᵥ σ.p ⬝ᵥ M *ᵥ σ.p = 0 then ⟨σ, .nullDirection, []⟩
    else if σ.movement M < precision then ⟨σ.next M, .smallMovement, [σ]⟩
    else if (σ.next M).gamma = 0 then ⟨σ.next M, .vanished, [σ]⟩
    else
      let rest := run M precision budget (σ.next M)
      ⟨rest.last, rest.ending, σ :: rest.visited⟩

/-- A run from a starting point; none of its steps is needed where the normal residual is zero. -/
def solve (M : Matrix (Fin m) (Fin n) K) (precision : K) (budget : Nat) (b : Fin m → K)
    (x : Fin n → K) : SearchRun m n K :=
  if (start M b x).gamma = 0 then ⟨start M b x, .stationary, []⟩
  else run M precision budget (start M b x)

end

/-- A state by the listings of its vectors. -/
def toIterate (σ : Search m n K) : Iterate K :=
  ⟨.ofFn σ.x, .ofFn σ.r, .ofFn σ.s, .ofFn σ.p, σ.gamma, σ.steps⟩

/-- The step taken from a state. -/
def toStep [Field K] (M : Matrix (Fin m) (Fin n) K) (σ : Search m n K) : SearchStep K :=
  ⟨(σ.next M).toIterate, σ.alpha M, σ.movement M⟩

end Search

/-- A run by the listings of its vectors. -/
def SearchRun.toSolution [Field K] (M : Matrix (Fin m) (Fin n) K) (run : SearchRun m n K) :
    Solution K :=
  ⟨run.last.toIterate, run.ending, run.visited.map (·.toStep M)⟩

/-! ## The solver -/

namespace LinearSystem

section
variable [CommSemiring K] {A : BlockMatrix K}

/-- The padded forward product is the product with the matrix of entries. -/
theorem forward_ofFn (hA : A.Regular) (hm : A.rows ≤ m) (hn : A.columns ≤ n) (x : Fin n → K) :
    (⟨A, m, n⟩ : LinearSystem K).forward (.dense (.ofList (List.ofFn x))) =
      .ok (List.ofFn (A.toMatrix m n *ᵥ x)) := by
  have hproduct := hA.apply_eq (f := x) (Operand.resolve_ofList (by simpa using hn)) hn
  rw [forward, hproduct]
  refine Dense.pad_ofFn (fun i => ∑ j : Fin n, A.entry i j * x j) (Int.toNat_le.2 hm) fun i hi => ?_
  refine Finset.sum_eq_zero fun j _ => ?_
  rw [hA.entry_eq_zero (by omega), zero_mul]

/-- The padded adjoint product with an operand of known entries. -/
theorem adjoint_of_resolve (hA : A.Regular) (hm : A.rows ≤ m) (hn : A.columns ≤ n)
    {y : Operand K} {f : Fin m → K} (hy : y.resolve A.rows = .ok (List.ofFn f)) :
    (⟨A, m, n⟩ : LinearSystem K).adjoint y = .ok (List.ofFn ((A.toMatrix m n)ᵀ *ᵥ f)) := by
  rw [adjoint, hA.adjoint_eq hy hm]
  refine Dense.pad_ofFn (fun j => ∑ i : Fin m, A.entry i j * f i) (Int.toNat_le.2 hn) fun j hj => ?_
  refine Finset.sum_eq_zero fun i _ => ?_
  rw [hA.entry_eq_zero (by omega), zero_mul]

/-- The padded adjoint product is the product with the transposed matrix of entries. -/
theorem adjoint_ofFn (hA : A.Regular) (hm : A.rows ≤ m) (hn : A.columns ≤ n) (y : Fin m → K) :
    (⟨A, m, n⟩ : LinearSystem K).adjoint (.dense (.ofList (List.ofFn y))) =
      .ok (List.ofFn ((A.toMatrix m n)ᵀ *ᵥ y)) :=
  adjoint_of_resolve hA hm hn (Operand.resolve_ofList (by simpa using hm))

end

section
variable [Field K] {A : BlockMatrix K}

/-- The state at a starting point. -/
theorem start_eq (hA : A.Regular) (hm : A.rows ≤ m) (hn : A.columns ≤ n) (b : Fin m → K)
    (x : Fin n → K) :
    (⟨A, m, n⟩ : LinearSystem K).start (.ofList (List.ofFn b)) (.ofList (List.ofFn x)) =
      .ok (Search.start (A.toMatrix m n) b x).toIterate := by
  have hr : (Tensor.ofList (List.ofFn b)).combine (· - ·)
      (.ofList (List.ofFn (A.toMatrix m n *ᵥ x))) = _ := Tensor.combine_ofList _ (by simp)
  rw [zipWith_ofFn] at hr
  simp only [start, forward_ofFn hA hm hn, bind, Except.bind, hr]
  rw [adjoint_ofFn hA hm hn]
  simp only [Dense.normSq_ofFn]
  rfl

/-- A step of the solver is a step of the method. -/
theorem advance_eq (hA : A.Regular) (hm : A.rows ≤ m) (hn : A.columns ≤ n) (σ : Search m n K) :
    (⟨A, m, n⟩ : LinearSystem K).advance σ.toIterate (List.ofFn (A.toMatrix m n *ᵥ σ.p)) =
      .ok (σ.toStep (A.toMatrix m n)) := by
  simp only [advance, Search.toIterate, Dense.normSq_ofFn, Dense.smul_ofFn, Dense.add_ofFn,
    Dense.sub_ofFn, adjoint_ofFn hA hm hn, bind, Except.bind]
  rfl

variable [LinearOrder K]

/-- A run of the solver is a run of the method. -/
theorem run_eq (hA : A.Regular) (hm : A.rows ≤ m) (hn : A.columns ≤ n) (precision : K)
    (budget : Nat) (σ : Search m n K) :
    (⟨A, m, n⟩ : LinearSystem K).run precision budget σ.toIterate =
      .ok ((Search.run (A.toMatrix m n) precision budget σ).toSolution (A.toMatrix m n)) := by
  induction budget generalizing σ with
  | zero => rfl
  | succ budget ih =>
    have hq : (⟨A, m, n⟩ : LinearSystem K).forward (.dense (.ofList σ.toIterate.p)) =
        .ok (List.ofFn (A.toMatrix m n *ᵥ σ.p)) := forward_ofFn hA hm hn σ.p
    simp only [run, hq, bind, Except.bind, Dense.normSq_ofFn, advance_eq hA hm hn, beq_iff_eq,
      Search.run]
    split
    · rfl
    · change (if σ.movement _ < precision then _ else if (σ.next _).gamma = 0 then _ else _) = _
      split
      · rfl
      · split
        · rfl
        · rw [show (σ.toStep (A.toMatrix m n)).iterate = (σ.next _).toIterate from rfl, ih]
          rfl

end

end LinearSystem

/-- The solver is the method for the matrix of entries. -/
theorem LinearSettings.solve_eq [Field K] [LinearOrder K] {A : BlockMatrix K} (hA : A.Regular)
    (settings : LinearSettings K) {b : Operand K} {f : Fin m → K}
    (hb : b.rightHandSide A.rows = .ok (.ofList (List.ofFn f))) (hm : A.rows ≤ m)
    (hn : A.columns ≤ n) (x : Fin n → K) :
    settings.solve A b (.ofList (List.ofFn x)) =
      .ok ((Search.solve (A.toMatrix m n) settings.precision settings.maxIterations.toNat f
        x).toSolution (A.toMatrix m n)) := by
  have hrows : (Tensor.ofList (List.ofFn f)).leading = .ok m := by simp [Tensor.leading]
  have hcolumns : (Tensor.ofList (List.ofFn x)).leading = .ok n := by simp [Tensor.leading]
  simp only [solve_eq_bind, hb, hrows, hcolumns, LinearSystem.start_eq hA hm hn, bind, Except.bind,
    beq_iff_eq, Search.solve]
  change (if (Search.start (A.toMatrix m n) f x).gamma = 0 then _ else _) = _
  split
  · rfl
  · exact LinearSystem.run_eq hA hm hn _ _ _

end LeastSquares
