import LeastSquares.Proofs.Representations

/-!
# Warm starts

Conjugate gradients decide by residuals, normal residuals and directions, never by the point itself.
So a run from `x₀ + d` for a right-hand side is the run from `d` for what `x₀` leaves of it, with
every point moved by `x₀`: this holds of the start (`Search.start_shift`), a step keeps it
(`Search.next_shift`), and so do whole runs (`Search.run_shift`, `Search.solve_shift`). In
particular, a solver that starts at `x₀` finds the same as one that solves for the correction from
zero, after the same number of steps (`LinearSolver.solve_correction`).
-/

open scoped Matrix

namespace LeastSquares

variable {K : Type} {m n : Nat} [Field K]

/-! ## The method -/

namespace Search

/-- A state whose point is moved. -/
def shift (x₀ : Fin n → K) (σ : Search m n K) : Search m n K := { σ with x := x₀ + σ.x }

variable {M : Matrix (Fin m) (Fin n) K} {x₀ : Fin n → K} {σ : Search m n K}

/-- A right-hand side and what a point leaves of it have the same residuals at moved points. -/
theorem start_shift (M : Matrix (Fin m) (Fin n) K) (b : Fin m → K) (x₀ d : Fin n → K) :
    start M b (x₀ + d) = (start M (b - M *ᵥ x₀) d).shift x₀ := by
  rw [start, Matrix.mulVec_add, ← sub_sub]
  rfl

theorem next_shift : (σ.shift x₀).next M = (σ.next M).shift x₀ := by
  have hx : x₀ + σ.x + σ.alpha M • σ.p = x₀ + (σ.x + σ.alpha M • σ.p) := add_assoc ..
  exact congrArg (fun x => { σ.next M with x := x }) hx

end Search

/-- A run whose points are moved. -/
def SearchRun.shift (x₀ : Fin n → K) (run : SearchRun m n K) : SearchRun m n K :=
  ⟨run.last.shift x₀, run.ending, run.visited.map (·.shift x₀)⟩

namespace Search

variable [LinearOrder K] {M : Matrix (Fin m) (Fin n) K} {x₀ : Fin n → K}

/-- No test of a run reads the point. -/
theorem run_shift (precision : K) (budget : Nat) (σ : Search m n K) :
    run M precision budget (σ.shift x₀) = (run M precision budget σ).shift x₀ := by
  induction budget generalizing σ with
  | zero => rfl
  | succ budget ih =>
    have hp : (σ.shift x₀).p = σ.p := rfl
    have hmovement : (σ.shift x₀).movement M = σ.movement M := rfl
    have hgamma : ((σ.next M).shift x₀).gamma = (σ.next M).gamma := rfl
    rw [run, run, hp, hmovement, next_shift, hgamma, ih]
    split_ifs <;> rfl

theorem solve_shift (precision : K) (budget : Nat) (b : Fin m → K) (x₀ d : Fin n → K) :
    solve M precision budget b (x₀ + d) =
      (solve M precision budget (b - M *ᵥ x₀) d).shift x₀ := by
  have hgamma : ((start M (b - M *ᵥ x₀) d).shift x₀).gamma = (start M (b - M *ᵥ x₀) d).gamma := rfl
  rw [solve, solve, start_shift, hgamma, run_shift]
  split_ifs <;> rfl

end Search

/-! ## The solver -/

variable [LinearOrder K] {A : BlockMatrix K} {b b' : Operand K} {f x : List K}

/-- The solver runs as the method does on vectors whose listings it is given. -/
theorem LinearSettings.solve_listed (hA : A.Regular) {β : Fin m → K}
    (hb : b.Materializes A.rows (List.ofFn β)) (hm : A.rows ≤ m) (hn : A.columns ≤ n)
    (x₀ : Fin n → K) (settings : LinearSettings K) :
    ∃ (run : SearchRun m n K) (out : Solution K),
      run = Search.solve (A.toMatrix m n) settings.precision settings.maxIterations.toNat β x₀ ∧
      settings.solve A b (.ofList (List.ofFn x₀)) = .ok out ∧ out.last.x = List.ofFn run.last.x ∧
      out.last.steps = run.last.steps ∧ out.ending = run.ending := by
  obtain ⟨f, hf⟩ : ∃ f, List.ofFn β = f := ⟨_, rfl⟩
  obtain ⟨x, hx⟩ : ∃ x, List.ofFn x₀ = x := ⟨_, rfl⟩
  obtain rfl : m = f.length := by rw [← hf, List.length_ofFn]
  obtain rfl : n = x.length := by rw [← hx, List.length_ofFn]
  have hβ : Dense.toVector _ f = β := List.ofFn_injective ((Dense.ofFn_toVector f).trans hf.symm)
  have hx₀ : Dense.toVector _ x = x₀ := List.ofFn_injective ((Dense.ofFn_toVector x).trans hx.symm)
  rw [hf] at hb
  rw [hx, ← hβ, ← hx₀]
  exact settings.solve_dense hA hb hm hn

/-- The solver runs alike for a right-hand side and for what a point leaves of it, where it starts
from the point moved further and from the move. -/
theorem LinearSettings.solve_shift (hA : A.Regular) {β : Fin m → K} {x₀ : Fin n → K}
    (hb : b.Materializes A.rows (List.ofFn β))
    (hb' : b'.Materializes A.rows (List.ofFn (β - A.toMatrix m n *ᵥ x₀))) (hm : A.rows ≤ m)
    (hn : A.columns ≤ n) (d : Fin n → K) (settings : LinearSettings K) :
    ∃ out out' : Solution K, settings.solve A b (.ofList (List.ofFn (x₀ + d))) = .ok out ∧
      settings.solve A b' (.ofList (List.ofFn d)) = .ok out' ∧
      out.last.x = Dense.add (List.ofFn x₀) out'.last.x ∧ out.last.steps = out'.last.steps ∧
      out.ending = out'.ending := by
  obtain ⟨run, out, hrun, hsolve, hlast, hsteps, hending⟩ :=
    settings.solve_listed hA hb hm hn (x₀ + d)
  obtain ⟨run', out', hrun', hsolve', hlast', hsteps', hending'⟩ :=
    settings.solve_listed hA hb' hm hn d
  obtain rfl : run = run'.shift x₀ := by rw [hrun, hrun', Search.solve_shift]
  refine ⟨out, out', hsolve, hsolve', ?_, hsteps.trans hsteps'.symm, hending.trans hending'.symm⟩
  rw [hlast, hlast', Dense.add_ofFn]
  rfl

/-- A solver that starts at a point finds the point moved by the correction: by what it finds from
zero for the difference of the right-hand side and the product with the point. Both runs take the
same number of steps and end for the same reason. A matrix with gaps is refused at any point. -/
theorem LinearSolver.solve_correction (hA : A.Admissible) (hb : b.Materializes A.rows f)
    (hf : A.rows ≤ f.length) (hx : A.columns ≤ x.length) (solver : LinearSolver K) :
    (A.Solid →
      ∃ product y : List K, A.apply (.dense (.ofList x)) = .ok product ∧
        Dense.pad f.length product = .ok y ∧
        ∀ b' : Operand K, b'.Materializes A.rows (Dense.sub f y) →
          ∃ (out out' : Solution K) (after : LinearSolver K),
            solver.solve A b (.ofList x) = (.ok out, after) ∧
            solver.solve A b' (.ofList (List.replicate x.length 0)) = (.ok out', after) ∧
            out.last.x = Dense.add x out'.last.x ∧ out.ending = out'.ending) ∧
    (¬A.Solid →
      solver.solve A b (.ofList x) = (.error .lengthMismatch, .fresh solver.settings)) := by
  obtain ⟨_, hside, hrows, -⟩ := hb.rightHandSide_eq hf
  refine ⟨fun hsolid => ?_, fun hgap => solver.solve_eq_error hA hgap hside hrows hx⟩
  have hA : A.Regular := hA.regular hsolid
  obtain ⟨β, hβ⟩ : ∃ β : Fin f.length → K, List.ofFn β = f := ⟨_, Dense.ofFn_toVector f⟩
  obtain ⟨x₀, hx₀⟩ : ∃ x₀ : Fin x.length → K, List.ofFn x₀ = x := ⟨_, Dense.ofFn_toVector x⟩
  have hforward := LinearSystem.forward_ofFn hA hf hx x₀
  rw [hx₀] at hforward
  obtain ⟨product, hproduct, hpad⟩ := bind_eq_ok.1 hforward
  refine ⟨product, _, hproduct, hpad, fun b' hb' => ?_⟩
  have hsub := Dense.sub_ofFn β (A.toMatrix f.length x.length *ᵥ x₀)
  rw [hβ] at hsub
  rw [hsub] at hb'
  rw [← hβ] at hb
  obtain ⟨out, out', hsolve, hsolve', hlast, hsteps, hending⟩ :=
    solver.settings.solve_shift hA hb hb' hf hx 0
  have hzero : List.ofFn (0 : Fin x.length → K) = List.replicate x.length 0 :=
    (replicate_eq_ofFn ..).symm
  rw [add_zero, hx₀] at hsolve
  rw [hzero] at hsolve'
  rw [hx₀] at hlast
  refine ⟨out, out', _, by rw [LinearSolver.solve_eq, hsolve], ?_, hlast, hending⟩
  rw [LinearSolver.solve_eq, hsolve', hsteps, hending]

/-- A start at two ones for two overlapping tiles and a block vector that is shorter than the
matrix, and the correction, which is solved for a list. -/
theorem LinearSolver.solve_correction_overlapping :
    let A : BlockMatrix ℚ := ⟨[1, 2, 3, 4, 5, 6], [.ofBounds 0 2 0 2, .ofBounds 1 3 1 2]⟩
    let b : Operand ℚ := .sparse ⟨[1, 2], [⟨0, 2⟩]⟩
    let b' : Operand ℚ := .dense (.ofList [-2, -10, -6])
    let solver : LinearSolver ℚ := .fresh ⟨1 / 100, 1, false⟩
    A.Admissible ∧ A.Solid ∧ b.Materializes A.rows [1, 2, 0] ∧
      A.apply (.dense (.ofList [1, 1])) = .ok [3, 12, 6] ∧
      ∃ (out out' : Solution ℚ) (after : LinearSolver ℚ),
        solver.solve A b (.ofList [1, 1]) = (.ok out, after) ∧
        solver.solve A b' (.ofList [0, 0]) = (.ok out', after) ∧
        out.last.x = Dense.add [1, 1] out'.last.x := by
  intro A b b' solver
  have hA : A.Admissible := by decide
  have hs : A.Solid := by decide
  have hb : b.Materializes A.rows [1, 2, 0] := .dense ⟨rfl, by decide⟩ (by decide +kernel)
  obtain ⟨product, y, hproduct, hpad, hcorrection⟩ :=
    (solve_correction hA hb (by decide) (x := [1, 1]) (by decide) solver).1 hs
  have happly : A.apply (.dense (.ofList [1, 1])) = .ok [3, 12, 6] := by decide +kernel
  obtain rfl := Except.ok.inj (hproduct.symm.trans happly)
  obtain rfl : [3, 12, 6] = y := Except.ok.inj hpad
  have hsub : Dense.sub [1, 2, 0] [3, 12, 6] = ([-2, -10, -6] : List ℚ) := by decide +kernel
  obtain ⟨out, out', after, hsolve, hsolve', hlast, -⟩ :=
    hcorrection b' (.solver (by rw [hsub]; rfl))
  exact ⟨hA, hs, hb, happly, out, out', after, hsolve, hsolve', hlast⟩

end LeastSquares
