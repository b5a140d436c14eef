import LeastSquares.Proofs.Krylov

/-!
# Movements and steps

A run with a positive precision ends when the movement of a step falls below it
(`SearchStep.movement`). The movement is not the squared length of the step: the step went along the
old direction, and the movement takes the new direction as far. The new direction is the new normal
residual and a multiple of the old direction, and the two are orthogonal. So the movement is a sum
of two squares, and the step enters it only scaled by the squared ratio of the lengths of the normal
residuals (`Search.Conjugate.movement_eq`).

A run that converges away from the solution of the normal equations therefore ends with a short step
exactly where this scale does not hide the step (`LinearSettings.solve_movement`). Where the normal
residual gets much shorter a long step may be the last one (`LinearSettings.solve_longStep`).
-/

open scoped Matrix

namespace LeastSquares

variable {K : Type} {m n : Nat} [Field K]

/-- The squared length of the residual of the normal equations at a point. -/
def normalSq (M : Matrix (Fin m) (Fin n) K) (b : Fin m → K) (x : Fin n → K) : K :=
  (Mᵀ *ᵥ (b - M *ᵥ x)) ⬝ᵥ (Mᵀ *ᵥ (b - M *ᵥ x))

/-- The squared distance of two points. -/
def distSq (x y : Fin n → K) : K := (y - x) ⬝ᵥ (y - x)

/-! ## One step -/

/-- What holds of a step from the point `x` to the point `y`: its movement is a sum of two squares,
of the new normal residual, taken as far as the step went, and of the step, scaled by how much
shorter the normal residual became. -/
structure SearchStep.Leads (M : Matrix (Fin m) (Fin n) K) (b : Fin m → K) (x y : Fin n → K)
    (step : SearchStep K) : Prop where
  x_eq : step.iterate.x = .ofFn y
  normalSq_ne_zero : normalSq M b x ≠ 0
  movement_eq : step.movement = step.alpha ^ 2 * normalSq M b y +
    (normalSq M b y / normalSq M b x) ^ 2 * distSq x y

variable [LinearOrder K] [IsStrictOrderedRing K]

section
variable {M : Matrix (Fin m) (Fin n) K} {b : Fin m → K} {x y x₀ : Fin n → K} {precision : K}

namespace SearchStep.Leads

variable {step : SearchStep K}

/-- The step is below a bound exactly where the movement is below the bound scaled as the step. -/
theorem distSq_lt_iff (h : step.Leads M b x y) (hy : normalSq M b y ≠ 0) :
    distSq x y < precision ↔ step.movement < step.alpha ^ 2 * normalSq M b y +
      (normalSq M b y / normalSq M b x) ^ 2 * precision := by
  have hscale : 0 < (normalSq M b y / normalSq M b x) ^ 2 :=
    sq_pos_of_ne_zero (div_ne_zero hy h.normalSq_ne_zero)
  rw [h.movement_eq, add_lt_add_iff_left, mul_lt_mul_iff_right₀ hscale]

/-- A step to a normal residual that is not shorter is no longer than its movement. -/
theorem distSq_le_movement (h : step.Leads M b x y) (hle : normalSq M b x ≤ normalSq M b y) :
    distSq x y ≤ step.movement := by
  have hpos : 0 < normalSq M b x :=
    lt_of_le_of_ne (dotProduct_self_nonneg _) h.normalSq_ne_zero.symm
  have hscale : 1 ≤ (normalSq M b y / normalSq M b x) ^ 2 :=
    one_le_pow₀ ((one_le_div₀ hpos).2 hle)
  have hnew : 0 ≤ step.alpha ^ 2 * normalSq M b y :=
    mul_nonneg (sq_nonneg _) (hpos.le.trans hle)
  calc distSq x y ≤ (normalSq M b y / normalSq M b x) ^ 2 * distSq x y :=
        le_mul_of_one_le_left (dotProduct_self_nonneg _) hscale
    _ ≤ step.movement := by
        rw [h.movement_eq]
        exact le_add_of_nonneg_left hnew

end SearchStep.Leads

namespace Search

variable {U : Submodule K (Fin n → K)} {σ : Search m n K}

omit [LinearOrder K] [IsStrictOrderedRing K] in
theorem Conjugate.gamma_eq_normalSq (h : Conjugate M b x₀ U σ) :
    σ.gamma = normalSq M b σ.x := by
  rw [h.gamma_eq, h.normal, h.residual, normalSq]

/-- A step from a normal residual that is not zero. The new direction is made of the new normal
residual and of the old direction, which are orthogonal. -/
theorem Conjugate.leads (h : Conjugate M b x₀ U σ) (hγ : σ.gamma ≠ 0) :
    (σ.toStep M).Leads M b σ.x (σ.next M).x where
  x_eq := rfl
  normalSq_ne_zero := by rwa [← h.gamma_eq_normalSq]
  movement_eq := by
    have hstep : (σ.next M).x - σ.x = σ.alpha M • σ.p := add_sub_cancel_left _ _
    have hturn : (σ.next M).p = (σ.next M).s + ((σ.next M).gamma / σ.gamma) • σ.p := rfl
    have hgamma : (σ.next M).gamma = (σ.next M).s ⬝ᵥ (σ.next M).s := rfl
    have horthogonal : (σ.next M).s ⬝ᵥ σ.p = 0 := h.next_orthogonal hγ h.p_mem
    have horthogonal' : σ.p ⬝ᵥ (σ.next M).s = 0 := (dotProduct_comm _ _).trans horthogonal
    rw [← h.gamma_eq_normalSq, ← (h.next hγ).gamma_eq_normalSq, toStep, movement, distSq, hstep,
      hturn]
    generalize (σ.next M).gamma / σ.gamma = ρ
    simp only [smul_add, add_dotProduct, dotProduct_add, smul_dotProduct, dotProduct_smul,
      smul_eq_mul, horthogonal, horthogonal', ← hgamma]
    ring

/-- The steps of a run from a starting point. -/
theorem leads_after {k : Nat} (h : ∀ i < k + 1, (after M b x₀ i).gamma ≠ 0) :
    ((after M b x₀ k).toStep M).Leads M b (after M b x₀ k).x (after M b x₀ (k + 1)).x := by
  have hconj := (spans_after fun i hi => h i (Nat.lt_succ_of_lt hi)).conjugate
  rw [after_succ]
  exact hconj.leads (h k (Nat.lt_succ_self k))

/-! ## The end of a run -/

/-- A run converges where the normal residual is zero or where the last movement is small. -/
theorem Conjugate.run_converged {budget : Nat} (h : Conjugate M b x₀ U σ) (hγ : σ.gamma ≠ 0)
    (hend : (run M precision budget σ).ending.converged = true) :
    (run M precision budget σ).last.gamma = 0 ∨
      ∃ τ ∈ (run M precision budget σ).visited.getLast?, τ.movement M < precision := by
  induction budget generalizing U σ with
  | zero => cases hend
  | succ budget ih =>
    rw [run, if_neg (h.product_ne_zero hγ)] at hend ⊢
    split at hend
    · rename_i hsmall
      rw [if_pos hsmall]
      exact .inr ⟨σ, rfl, hsmall⟩
    · rename_i hlarge
      rw [if_neg hlarge]
      split at hend
      · rename_i hzero
        rw [if_pos hzero]
        exact .inl hzero
      · rename_i hne
        rw [if_neg hne]
        -- the last step of the run is the last one of what follows the first
        refine (ih (h.next hγ) hne hend).imp_right ?_
        rintro ⟨τ, hτ, hsmall⟩
        refine ⟨τ, ?_, hsmall⟩
        rw [Option.mem_def] at hτ ⊢
        simp only [List.getLast?_cons, hτ, Option.getD_some]

/-- A run from a starting point converges where the normal residual is zero or where the last
movement is small. -/
theorem solve_converged (M : Matrix (Fin m) (Fin n) K) (precision : K) (budget : Nat)
    (b : Fin m → K) (x₀ : Fin n → K)
    (hend : (solve M precision budget b x₀).ending.converged = true) :
    (solve M precision budget b x₀).last.gamma = 0 ∨
      ∃ τ ∈ (solve M precision budget b x₀).visited.getLast?, τ.movement M < precision := by
  rw [solve] at hend ⊢
  split at hend
  · rename_i hγ
    rw [if_pos hγ]
    exact .inl hγ
  · rename_i hγ
    rw [if_neg hγ]
    exact (Conjugate.start M b x₀).run_converged hγ hend

end Search

end

/-! ## The solver -/

variable {A : BlockMatrix K} {b : Operand K} {f x : List K}

/-- What the movements of a run say of its steps. Where a run converges away from the solutions of
the normal equations, its last movement is below the precision; its last step is so exactly where
the movement is below the precision scaled as the step is, and always where the step does not make
the normal residual shorter. A matrix with gaps is refused. -/
theorem LinearSettings.solve_movement (hA : A.Admissible)
    (hb : b.rightHandSide A.rows = .ok (.ofList f)) (hrows : A.rows ≤ f.length)
    (hx : A.columns ≤ x.length) (settings : LinearSettings K) :
    (A.Solid →
      ∃ (D : Tensor K) (M : Matrix (Fin f.length) (Fin x.length) K) (β : Fin f.length → K)
        (out : Solution K) (y : Nat → Fin x.length → K),
        A.dense = .ok D ∧ D.shape = [A.rows.toNat, A.columns.toNat] ∧ M = D.toMatrix _ _ ∧
        β = Dense.toVector _ f ∧ y 0 = Dense.toVector _ x ∧
        settings.solve A b (.ofList x) = .ok out ∧ out.last.x = .ofFn (y out.trace.length) ∧
        (∀ (k : Nat) (hk : k < out.trace.length), out.trace[k].Leads M β (y k) (y (k + 1))) ∧
        (out.ending.converged = true → Mᵀ *ᵥ (β - M *ᵥ y out.trace.length) ≠ 0 →
          ∀ (k : Nat) (hk : k < out.trace.length), k + 1 = out.trace.length →
            out.trace[k].movement < settings.precision ∧
            (distSq (y k) (y (k + 1)) < settings.precision ↔
              out.trace[k].movement < out.trace[k].alpha ^ 2 * normalSq M β (y (k + 1)) +
                (normalSq M β (y (k + 1)) / normalSq M β (y k)) ^ 2 * settings.precision) ∧
            (normalSq M β (y k) ≤ normalSq M β (y (k + 1)) →
              distSq (y k) (y (k + 1)) < settings.precision))) ∧
    (¬A.Solid → settings.solve A b (.ofList x) = .error .lengthMismatch) := by
  refine ⟨fun hsolid => ?_, fun hgap => settings.solve_eq_error hA hgap hb hrows hx⟩
  have hA : A.Regular := hA.regular hsolid
  obtain ⟨D, hD, hshape, hdense⟩ := hA.dense_eq
  obtain ⟨M, β, x₀, hM, hβ, hx₀, hsolve⟩ := settings.solve_ofList hA hb hrows hx
  have hconverged :=
    Search.solve_converged M settings.precision settings.maxIterations.toNat β x₀
  obtain ⟨steps, -, hlast, hvisited, hgamma⟩ :=
    Search.solve_eq_after M settings.precision settings.maxIterations.toNat β x₀
  rw [hlast, hvisited] at hconverged
  rw [SearchRun.toSolution, hlast, hvisited, List.map_map] at hsolve
  have hleads : ∀ k < steps, ((Search.after M β x₀ k).toStep M).Leads M β
      (Search.after M β x₀ k).x (Search.after M β x₀ (k + 1)).x := fun k hk =>
    Search.leads_after fun i hi => hgamma i (hi.trans_le hk)
  refine ⟨D, M, β, _, fun i => (Search.after M β x₀ i).x, hD, hshape, hM.trans (hdense _ _).symm,
    hβ, hx₀, hsolve, ?_, ?_, ?_⟩
  · rw [List.length_map, List.length_range]
    rfl
  · intro k hk
    rw [List.length_map, List.length_range] at hk
    rw [List.getElem_map, List.getElem_range]
    exact hleads k hk
  · intro hend hnormal k hk hlength
    rw [List.length_map, List.length_range] at hlength hk hnormal
    rw [List.getElem_map, List.getElem_range]
    subst hlength
    have hne : normalSq M β (Search.after M β x₀ (k + 1)).x ≠ 0 := fun hzero =>
      hnormal (dotProduct_self_eq_zero.1 hzero)
    -- the last state is no solution, so it was the movement that ended the run
    have hsmall : (Search.after M β x₀ k).movement M < settings.precision := by
      obtain hzero | ⟨τ, hτ, hτsmall⟩ := hconverged hend
      · rw [(Search.spans_after hgamma).conjugate.gamma_eq_normalSq] at hzero
        exact absurd hzero hne
      · rw [List.range_succ, List.map_append, List.map_singleton, List.getLast?_concat,
          Option.mem_some_iff] at hτ
        rwa [hτ]
    exact ⟨hsmall, (hleads k hk).distSq_lt_iff hne, fun hle =>
      ((hleads k hk).distSq_le_movement hle).trans_lt hsmall⟩

/-- A run with known values gives a result, and these are its values. -/
theorem exists_ok_of_map {α β ε : Type} {run : Except ε α} {value : α → β} {v : β}
    (h : run.toOption.map value = some v) : ∃ out, run = .ok out ∧ value out = v := by
  cases run with
  | ok out => exact ⟨out, rfl, Option.some.inj h⟩
  | error => cases h

/-- A run that converges away from the solution after a step that makes the normal residual longer,
and so is below the precision as the movement is. -/
theorem LinearSettings.solve_movement_shortStep :
    let A : BlockMatrix ℚ := ⟨[1, 0, 0, 2, 0, 2, 0, 1], [.ofBounds 0 4 0 2]⟩
    let b : Operand ℚ := .dense (.ofList [3, 0, 0, 1])
    let settings : LinearSettings ℚ := ⟨16, 5, false⟩
    A.Admissible ∧ A.Solid ∧ b.rightHandSide A.rows = .ok (.ofList [3, 0, 0, 1]) ∧
      ∃ (out : Solution ℚ) (y z : Fin 2 → ℚ), settings.solve A b (.ofList [0, 0]) = .ok out ∧
        out.ending.converged = true ∧ out.trace.length = 1 ∧ y = ![0, 0] ∧
        out.last.x = List.ofFn z ∧ distSq y z < 16 := by
  intro A b settings
  have hA : A.Admissible := by decide
  have hs : A.Solid := by decide
  have hb : b.rightHandSide A.rows = .ok (.ofList [3, 0, 0, 1]) := rfl
  have hrun : (settings.solve A b (.ofList [0, 0])).toOption.map
      (fun out => (out.ending, out.trace.length, out.last.x)) =
      some (.smallMovement, 1, [5 / 3, 5 / 9]) := by
    decide +kernel
  obtain ⟨D, M, β, out, y, hD, -, hM, hβ, hy, hsolve, hlast, -, hmovement⟩ :=
    (solve_movement hA hb (by decide) (x := [0, 0]) (by decide) settings).1 hs
  obtain ⟨out', hout', hvalues⟩ := exists_ok_of_map hrun
  obtain rfl : out = out' := Except.ok.inj (hsolve.symm.trans hout')
  obtain ⟨hending, hlength, hx⟩ : out.ending = .smallMovement ∧ out.trace.length = 1 ∧
      out.last.x = [5 / 3, 5 / 9] := by simpa using hvalues
  have hconverged : out.ending.converged = true := by rw [hending]; rfl
  -- the run determines the two points, and the matrix is known
  have hy₀ : y 0 = ![0, 0] := hy.trans (by decide)
  have hy₁ : y 1 = ![5 / 3, 5 / 9] := by
    rw [hlength, hx] at hlast
    exact List.ofFn_injective (hlast.symm.trans rfl)
  obtain ⟨D', hD', -, hdense⟩ := (hA.regular hs).dense_eq
  obtain rfl : D = D' := Except.ok.inj (hD.symm.trans hD')
  rw [hdense] at hM
  have hβ' : β = ![3, 0, 0, 1] := hβ.trans (by decide)
  have hnormal : Mᵀ *ᵥ (β - M *ᵥ y out.trace.length) ≠ 0 := by
    rw [hlength, hy₁, hM, hβ']
    decide +kernel
  have hgrows : normalSq M β (y 0) ≤ normalSq M β (y 1) := by
    rw [hy₀, hy₁, hM, hβ']
    decide +kernel
  have hshort := (hmovement hconverged hnormal 0 (by omega) hlength.symm).2.2 hgrows
  exact ⟨hA, hs, hb, out, y 0, y 1, hsolve, hconverged, hlength, hy₀, hlength ▸ hlast, hshort⟩

/-- A long step that ends a run away from the solution. The precision is `1 / 4`; the movement is
`5 / 32`, as the normal residual becomes half as long, and the squared length of the step is
`1 / 2`. -/
theorem LinearSettings.solve_longStep :
    let A : BlockMatrix ℚ := ⟨[1, 0, 0, 1, 0, 1, 0, 1], [.ofBounds 0 4 0 2]⟩
    let b : Operand ℚ := .dense (.ofList [1, 1, 0, 0])
    let settings : LinearSettings ℚ := ⟨1 / 4, 1, false⟩
    ∃ (D : Tensor ℚ) (out : Solution ℚ), A.Regular ∧ A.dense = .ok D ∧
      settings.solve A b (.ofList [0, 0]) = .ok out ∧ out.ending.converged = true ∧
      out.trace.length = 1 ∧ out.last.x = [1 / 2, 1 / 2] ∧
      (D.toMatrix 4 2)ᵀ *ᵥ (![1, 1, 0, 0] - D.toMatrix 4 2 *ᵥ ![1 / 2, 1 / 2]) ≠ 0 ∧
      ¬distSq ![0, 0] ![1 / 2, 1 / 2] < settings.precision := by
  intro A b settings
  have hA : A.Regular := by decide
  have hrun : (settings.solve A b (.ofList [0, 0])).toOption.map
      (fun out => (out.ending, out.trace.length, out.last.x)) =
      some (.smallMovement, 1, [1 / 2, 1 / 2]) := by
    decide +kernel
  obtain ⟨out, hout, hvalues⟩ := exists_ok_of_map hrun
  obtain ⟨hending, hlength, hx⟩ : out.ending = .smallMovement ∧ out.trace.length = 1 ∧
      out.last.x = [1 / 2, 1 / 2] := by simpa using hvalues
  obtain ⟨D, hD, -, hM⟩ := hA.dense_eq
  refine ⟨D, out, hA, hD, hout, by rw [hending]; rfl, hlength, hx, ?_, by decide +kernel⟩
  rw [hM]
  decide +kernel

end LeastSquares
