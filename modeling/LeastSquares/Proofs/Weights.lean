import LeastSquares.Proofs.Multiples
import LeastSquares.Proofs.Refusals

/-!
# Relative weights

A weight that multiplies a matrix and its right-hand side alike does not change what conjugate
gradients find. With every scalar multiplied by `c`, the residual is multiplied by `c`, the normal
residual and the direction by `c ^ 2` and the squared length of the normal residual by `c ^ 4`,
while a step goes `(c ^ 2)⁻¹` times as far along its direction (`Iterate.scale`,
`SearchStep.scale`): so it leads to the same point. What is compared with the precision stays the
same, and what is compared with zero is zero in both runs. The start has these multiples
(`LinearSystem.start_scale`), a step keeps them (`LinearSystem.advance_scale`), and so does a run,
wherever it ends (`LinearSystem.run_scale`).

As an equation of checked computations (`LinearSettings.solve_scale`), this holds of all matrices,
right-hand sides and starting points, the refused ones included. So a solver finds the same, after
the same number of steps (`LinearSolver.solve_weighted`).
-/

namespace LeastSquares

variable {K : Type} [Field K] (c : K)

/-! ## Systems and states -/

/-- A system with every scalar of its matrix multiplied by `c`. -/
def LinearSystem.scale (A : LinearSystem K) : LinearSystem K :=
  ⟨A.matrix.map (c * ·), A.rows, A.columns⟩

/-- The state of a run with all scalars of the system multiplied by `c`. -/
def Iterate.scale (it : Iterate K) : Iterate K :=
  ⟨it.x, Dense.smul c it.r, Dense.smul (c ^ 2) it.s, Dense.smul (c ^ 2) it.p, c ^ 4 * it.gamma,
    it.steps⟩

/-- A step of such a run. -/
def SearchStep.scale (step : SearchStep K) : SearchStep K :=
  ⟨step.iterate.scale c, (c ^ 2)⁻¹ * step.alpha, step.movement⟩

/-- Such a run at its end. -/
def Solution.scale (out : Solution K) : Solution K :=
  ⟨out.last.scale c, out.ending, out.trace.map (·.scale c)⟩

/-- The right-hand side may be multiplied before it is materialized. -/
theorem Operand.rightHandSide_scale (rows : Int) (b : Operand K) :
    (b.map (c * ·)).rightHandSide rows = Tensor.map (c * ·) <$> b.rightHandSide rows := by
  cases b with
  | dense t => rfl
  | sparse v =>
    have hdimension : (v.map (c * ·)).dimension = v.dimension := rfl
    simp only [map, rightHandSide, hdimension, BlockVector.dense_smul, bind_map_left, map_bind]
    exact bind_congr fun xs => congrArg Except.ok (Tensor.map_ofList ..).symm

/-! ## Steps -/

namespace LinearSystem

variable (A : LinearSystem K) (d : K)

theorem forward_scale (x : Operand K) :
    (A.scale c).forward (x.map (d * ·)) = Dense.smul (c * d) <$> A.forward x := by
  rw [forward, forward, scale, BlockMatrix.apply_smul, bind_map_left, map_bind]
  exact bind_congr fun product => Dense.pad_smul ..

theorem adjoint_scale (y : Operand K) :
    (A.scale c).adjoint (y.map (d * ·)) = Dense.smul (c * d) <$> A.adjoint y := by
  rw [adjoint, adjoint, scale, BlockMatrix.adjoint_smul, bind_map_left, map_bind]
  exact bind_congr fun product => Dense.pad_smul ..

/-- A multiple of a product of a vector that stays as it is. -/
theorem forward_scale_left (x : Operand K) :
    (A.scale c).forward x = Dense.smul c <$> A.forward x := by
  have hx := A.forward_scale c 1 x
  rwa [Operand.map_one_mul, mul_one] at hx

theorem start_scale (bias x : Tensor K) :
    (A.scale c).start (bias.map (c * ·)) x = Iterate.scale c <$> A.start bias x := by
  rw [start, start, forward_scale_left, bind_map_left, map_bind]
  refine bind_congr fun product => ?_
  have hr : (bias.map (c * ·)).combine (· - ·) (.ofList (Dense.smul c product)) =
      Tensor.map (c * ·) <$> bias.combine (· - ·) (.ofList product) := by
    rw [Dense.smul, ← Tensor.map_ofList]
    exact Tensor.combine_map (fun x y => (mul_sub c x y).symm) ..
  rw [hr, bind_map_left, map_bind]
  refine bind_congr fun r => ?_
  have hs : (A.scale c).adjoint (.dense (r.map (c * ·))) = _ := A.adjoint_scale c c (.dense r)
  rw [hs, ← pow_two, bind_map_left, map_bind]
  refine bind_congr fun s => congrArg Except.ok ?_
  simp only [Iterate.scale, Dense.normSq_smul, ← pow_add]
  rfl

end LinearSystem

variable {c}

theorem Iterate.gamma_scale_eq_zero (hc : c ≠ 0) (it : Iterate K) :
    (it.scale c).gamma = 0 ↔ it.gamma = 0 := mul_eq_zero_iff_left (pow_ne_zero 4 hc)

namespace Dense

/-- The squared length of a normal residual. -/
theorem normSq_smul_sq (s : List K) : normSq (smul (c ^ 2) s) = c ^ 4 * normSq s := by
  rw [normSq_smul, ← pow_add]

theorem normSq_smul_eq_zero (hc : c ≠ 0) (xs : List K) :
    normSq (smul c xs) = 0 ↔ normSq xs = 0 := by
  rw [normSq_smul, mul_eq_zero_iff_left (mul_ne_zero hc hc)]

/-- How far a step goes along its direction. -/
theorem alpha_smul (hc : c ≠ 0) (gamma : K) (q : List K) :
    c ^ 4 * gamma / normSq (smul (c ^ 3) q) = (c ^ 2)⁻¹ * (gamma / normSq q) := by
  have hpow : c ^ 3 * c ^ 3 = c ^ 4 * c ^ 2 := by ring
  rw [normSq_smul, hpow, mul_assoc, mul_div_mul_left _ _ (pow_ne_zero 4 hc), inv_mul_eq_div,
    div_div, mul_comm (c ^ 2)]

/-- The multiple of a direction leads as far as the direction. -/
theorem step_smul (hc : c ≠ 0) (a : K) (p : List K) :
    smul ((c ^ 2)⁻¹ * a) (smul (c ^ 2) p) = smul a p := by
  rw [smul_smul, mul_right_comm, inv_mul_cancel₀ (pow_ne_zero 2 hc), one_mul]

/-- What a step takes from the residual. -/
theorem product_smul (hc : c ≠ 0) (a : K) (q : List K) :
    smul ((c ^ 2)⁻¹ * a) (smul (c ^ 3) q) = smul c (smul a q) := by
  rw [pow_succ c 2, ← smul_smul (c ^ 2), step_smul hc, smul_smul, smul_smul, mul_comm]

/-- The direction behind a step. -/
theorem turn_smul (hc : c ≠ 0) (gamma gamma' : K) (s p : List K) :
    add (smul (c ^ 2) s) (smul (c ^ 4 * gamma' / (c ^ 4 * gamma)) (smul (c ^ 2) p)) =
      smul (c ^ 2) (add s (smul (gamma' / gamma) p)) := by
  rw [mul_div_mul_left _ _ (pow_ne_zero 4 hc), smul_smul, mul_comm _ (c ^ 2), ← smul_smul,
    add_smul_smul]

end Dense

namespace LinearSystem

variable (A : LinearSystem K)

/-- A step keeps the multiples. -/
theorem advance_scale (hc : c ≠ 0) (it : Iterate K) (q : List K) :
    (A.scale c).advance (it.scale c) (Dense.smul (c ^ 3) q) =
      SearchStep.scale c <$> A.advance it q := by
  have hadjoint : ∀ r : List K, (A.scale c).adjoint (.dense (.ofList (Dense.smul c r))) =
      Dense.smul (c ^ 2) <$> A.adjoint (.dense (.ofList r)) := by
    intro r
    rw [pow_two, ← A.adjoint_scale, Operand.map_ofList]
  simp only [advance, Iterate.scale, Dense.alpha_smul hc, Dense.step_smul hc,
    Dense.product_smul hc, Dense.sub_smul_smul, hadjoint, bind_map_left, map_bind]
  refine bind_congr fun s => congrArg Except.ok ?_
  simp only [Dense.normSq_smul_sq, Dense.turn_smul hc, Dense.step_smul hc]
  rfl

variable [LinearOrder K]

/-- Runs keep the multiples, and end alike. -/
theorem run_scale (hc : c ≠ 0) (precision : K) (budget : Nat) (it : Iterate K) :
    (A.scale c).run precision budget (it.scale c) =
      Solution.scale c <$> A.run precision budget it := by
  induction budget generalizing it with
  | zero => rfl
  | succ budget ih =>
    have hforward : (A.scale c).forward (.dense (.ofList (it.scale c).p)) =
        Dense.smul (c ^ 3) <$> A.forward (.dense (.ofList it.p)) := by
      rw [pow_succ' c 2, ← A.forward_scale, Operand.map_ofList]
      rfl
    rw [run, run, hforward, bind_map_left, map_bind]
    refine bind_congr fun q => ?_
    simp only [beq_iff_eq, Dense.normSq_smul_eq_zero (pow_ne_zero 3 hc)]
    split
    · rfl
    · rw [advance_scale A hc, bind_map_left, map_bind]
      refine bind_congr fun step => ?_
      have hmovement : (step.scale c).movement = step.movement := rfl
      have hiterate : (step.scale c).iterate = step.iterate.scale c := rfl
      simp only [hmovement, hiterate, Iterate.gamma_scale_eq_zero hc, ih]
      split
      · rfl
      · split
        · rfl
        · rw [bind_map_left, map_bind]
          rfl

end LinearSystem

/-! ## The solver -/

variable [LinearOrder K]

/-- What is computed of the multiples is the multiple of what is computed. -/
theorem LinearSettings.solve_scale (hc : c ≠ 0) (settings : LinearSettings K) (A : BlockMatrix K)
    (b : Operand K) (x : Tensor K) :
    settings.solve (A.map (c * ·)) (b.map (c * ·)) x =
      Solution.scale c <$> settings.solve A b x := by
  have hrows : (A.map (c * ·)).rows = A.rows := rfl
  rw [solve_eq_bind, solve_eq_bind, hrows, Operand.rightHandSide_scale, bind_map_left, map_bind]
  refine bind_congr fun bias => ?_
  have hleading : (bias.map (c * ·)).leading = bias.leading := rfl
  rw [hleading, map_bind]
  refine bind_congr fun rows => ?_
  rw [map_bind]
  refine bind_congr fun columns => ?_
  have hstart : (⟨A.map (c * ·), rows, columns⟩ : LinearSystem K).start (bias.map (c * ·)) x =
      Iterate.scale c <$> _ := LinearSystem.start_scale c ⟨A, rows, columns⟩ bias x
  dsimp only
  rw [hstart, bind_map_left, map_bind]
  refine bind_congr fun first => ?_
  simp only [beq_iff_eq, Iterate.gamma_scale_eq_zero hc]
  split
  · rfl
  · exact LinearSystem.run_scale ⟨A, rows, columns⟩ hc ..

/-- A weight on a matrix and its right-hand side does not matter to a solver: whatever they are, and
wherever the run ends, it finds the same point, or refuses for the same reason, and remembers the
same number of steps and the same convergence. It does find a point where the matrix has neither
gaps nor negative bounds and reaches no further than the starting point and a list on the right. -/
theorem LinearSolver.solve_weighted (hc : c ≠ 0) (solver : LinearSolver K) (A : BlockMatrix K)
    (b : Operand K) (x : Tensor K) :
    let run := solver.solve A b x
    let weighted := solver.solve (A.map (c * ·)) (b.map (c * ·)) x
    weighted.1.map (·.last.x) = run.1.map (·.last.x) ∧ weighted.2 = run.2 ∧
    ∀ xs, x = .ofList xs → A.Regular → b.OnAxis → ¬A.Exceeds b xs →
      ∃ y, run.1.map (·.last.x) = .ok y ∧ y.length = xs.length := by
  intro run weighted
  have hweighted : weighted = (Solution.scale c <$> run.1, run.2) := by
    simp only [weighted, run, solve_eq, LinearSettings.solve_scale hc]
    cases solver.settings.solve A b x <;> rfl
  refine ⟨?_, by rw [hweighted], ?_⟩
  · rw [hweighted]
    cases run.1 <;> rfl
  · rintro xs rfl hA hb hfits
    obtain ⟨_, -, -, houtcome⟩ :=
      LinearSettings.solve_outcome hA.toAdmissible hb xs solver.settings
    obtain ⟨_, out, -, hsolve, hlen, -⟩ := houtcome hfits hA.solid
    refine ⟨out.last.x, ?_, hlen⟩
    have hrun : run = _ := solver.solve_eq A b _
    rw [hrun, hsolve]
    rfl

/-- Two overlapping tiles and a block vector that is shorter, everything halved. -/
theorem LinearSolver.solve_weighted_half :
    let A : BlockMatrix ℚ := ⟨[1, 2, 3, 4, 5, 6], [.ofBounds 0 2 0 2, .ofBounds 1 3 1 2]⟩
    let half : BlockMatrix ℚ := ⟨[1 / 2, 1, 3 / 2, 2, 5 / 2, 3], A.tiles⟩
    let run := (LinearSolver.fresh ⟨1 / 100, 3, false⟩).solve A (.sparse ⟨[1, 2], [⟨0, 2⟩]⟩)
      (.ofList [1, 1])
    let weighted := (LinearSolver.fresh ⟨1 / 100, 3, false⟩).solve half
      (.sparse ⟨[1 / 2, 1], [⟨0, 2⟩]⟩) (.ofList [1, 1])
    (1 / 2 : ℚ) ≠ 0 ∧ A.Regular ∧ (Operand.sparse ⟨([1, 2] : List ℚ), [⟨0, 2⟩]⟩).OnAxis ∧
      ∃ y, run.1.map (·.last.x) = .ok y ∧ weighted.1.map (·.last.x) = .ok y ∧
        weighted.2 = run.2 := by
  intro A half run weighted
  have hc : (1 / 2 : ℚ) ≠ 0 := by norm_num
  have hA : A.Regular := by decide
  have hb : (Operand.sparse ⟨([1, 2] : List ℚ), [⟨0, 2⟩]⟩).OnAxis := .blocks ⟨rfl, by decide⟩
  have hfits : ¬A.Exceeds (.sparse ⟨[1, 2], [⟨0, 2⟩]⟩) [1, 1] := by
    rintro (hlt | ⟨f, hf, -⟩)
    · exact absurd hlt (by decide)
    · cases hf
  have hhalf : A.map (1 / 2 * ·) = half := by decide +kernel
  have hvector : (Operand.sparse ⟨([1, 2] : List ℚ), [⟨0, 2⟩]⟩).map (1 / 2 * ·) =
      .sparse ⟨[1 / 2, 1], [⟨0, 2⟩]⟩ := congrArg Operand.sparse (by decide +kernel)
  have hsame := solve_weighted hc (.fresh ⟨1 / 100, 3, false⟩) A (.sparse ⟨[1, 2], [⟨0, 2⟩]⟩)
    (.ofList [1, 1])
  rw [hhalf, hvector] at hsame
  -- the runs are matched as they stand, before a part of their outcomes is asked for
  extract_lets run' weighted' at hsame
  have hrun : run = run' := rfl
  have hweighted : weighted = weighted' := rfl
  clear_value run weighted run' weighted'
  subst hrun hweighted
  obtain ⟨hpoint, hafter, hfound⟩ := hsame
  obtain ⟨y, hy, -⟩ := hfound [1, 1] rfl hA hb hfits
  exact ⟨hc, hA, hb, y, hy, hpoint.trans hy, hafter⟩

end LeastSquares
