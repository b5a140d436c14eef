import LeastSquares.Proofs.Movement
import Mathlib.Order.Interval.Set.Monotone

/-!
# Distances to solutions

A run of conjugate gradients stays in the row space through its start, and solutions differ by
vectors orthogonal to the row space. So where a run ends at a solution, that is the one nearest to
the start (`nearest_of_mem_rowSpace`, `LinearSettings.solve_nearest`).

The method makes the residual short, not the distance to a solution, but every step leads closer to
all solutions as well (`LinearSettings.solve_approaches`). The reason is that a run does not turn
back: the next direction has the inner products of the direction with the searched space, scaled by
a number that is not negative, so whatever way to a solution is left goes along the direction
(`Search.Conjugate.exists_ahead`).
-/

open scoped Matrix

namespace LeastSquares

variable {K : Type} {m n : Nat}

/-! ## Squared distances -/

section
variable [Field K]

/-- The squared distance of two points by way of a third one. -/
theorem distSq_eq_add (x y z : Fin n → K) :
    distSq x z = distSq x y + distSq y z + 2 * ((y - x) ⬝ᵥ (z - y)) := by
  have hway : z - x = (y - x) + (z - y) := (sub_add_sub_cancel' y x z).symm
  rw [distSq, distSq, distSq, hway, add_dotProduct, dotProduct_add, dotProduct_add,
    dotProduct_comm (z - y)]
  ring

variable [LinearOrder K] [IsStrictOrderedRing K]

theorem distSq_nonneg (x y : Fin n → K) : 0 ≤ distSq x y := dotProduct_self_nonneg _

theorem distSq_pos {x y : Fin n → K} (h : x ≠ y) : 0 < distSq x y :=
  lt_of_le_of_ne (distSq_nonneg x y) fun hzero =>
    h (sub_eq_zero.1 (dotProduct_self_eq_zero.1 hzero.symm)).symm

end

/-! ## Solutions -/

section
variable [Field K] [LinearOrder K]

/-- A point of shortest residual. -/
def Solves (M : Matrix (Fin m) (Fin n) K) (b : Fin m → K) (x : Fin n → K) : Prop :=
  ∀ z, (b - M *ᵥ x) ⬝ᵥ (b - M *ᵥ x) ≤ (b - M *ᵥ z) ⬝ᵥ (b - M *ᵥ z)

/-- The point of shortest residual that is nearest to `x₀`: every other one is farther away. -/
structure Nearest (M : Matrix (Fin m) (Fin n) K) (b : Fin m → K) (x₀ x : Fin n → K) : Prop where
  solves : Solves M b x
  lt : ∀ z, Solves M b z → z ≠ x → distSq x₀ x < distSq x₀ z

variable [IsStrictOrderedRing K] {M : Matrix (Fin m) (Fin n) K} {b : Fin m → K}
  {x₀ x z : Fin n → K}

/-- Points where the normal residual is zero differ by a vector that the matrix takes to zero. -/
theorem mulVec_sub_eq_zero (hx : Mᵀ *ᵥ (b - M *ᵥ x) = 0) (hz : Mᵀ *ᵥ (b - M *ᵥ z) = 0) :
    M *ᵥ (z - x) = 0 := by
  have hnormal : Mᵀ *ᵥ (M *ᵥ (z - x)) = 0 := by
    have hsub : M *ᵥ (z - x) = (b - M *ᵥ x) - (b - M *ᵥ z) := by
      rw [Matrix.mulVec_sub, sub_sub_sub_cancel_left]
    rw [hsub, Matrix.mulVec_sub, hx, hz, sub_zero]
  refine dotProduct_self_eq_zero.1 ?_
  rw [← transpose_mulVec_dotProduct, hnormal, zero_dotProduct]

/-- The residual is shortest exactly where the normal residual is zero. -/
theorem solves_iff : Solves M b z ↔ Mᵀ *ᵥ (b - M *ᵥ z) = 0 := by
  refine ⟨fun hz => ?_, dotProduct_self_le_of_normal⟩
  -- the method finds a point where the normal residual is zero
  obtain ⟨x, hx⟩ : ∃ x, Mᵀ *ᵥ (b - M *ᵥ x) = 0 :=
    ⟨_, (Search.solve_stationary (le_refl 0) (le_refl M.rank) b 0).2.2⟩
  have hcross : (b - M *ᵥ x) ⬝ᵥ M *ᵥ (x - z) = 0 := by
    rw [← transpose_mulVec_dotProduct, hx, zero_dotProduct]
  have hle := hz x
  rw [dotProduct_self_of_orthogonal hcross] at hle
  have hzero : M *ᵥ (x - z) = 0 :=
    dotProduct_self_eq_zero.1 (le_antisymm (by linarith) (dotProduct_self_nonneg _))
  rw [Matrix.mulVec_sub, sub_eq_zero] at hzero
  rw [← hzero, hx]

omit [IsStrictOrderedRing K] in
/-- The solution nearest to zero is the shortest one. -/
theorem Nearest.dotProduct_self_lt (h : Nearest M b x₀ x) (hzero : x₀ = 0) (hz : Solves M b z)
    (hne : z ≠ x) : x ⬝ᵥ x < z ⬝ᵥ z := by
  have hlt := h.lt z hz hne
  rwa [hzero, distSq, distSq, sub_zero, sub_zero] at hlt

/-- A solution that the row space leads to from a point is the nearest one to the point. -/
theorem nearest_of_mem_rowSpace (hmem : x - x₀ ∈ (Mᵀ).mulVecLin.range)
    (hx : Mᵀ *ᵥ (b - M *ᵥ x) = 0) : Nearest M b x₀ x where
  solves := solves_iff.2 hx
  lt z hz hne := by
    obtain ⟨w, hw⟩ := hmem
    have horthogonal : (x - x₀) ⬝ᵥ (z - x) = 0 := by
      rw [← hw, Matrix.mulVecLin_apply, transpose_mulVec_dotProduct,
        mulVec_sub_eq_zero hx (solves_iff.1 hz), dotProduct_zero]
    rw [distSq_eq_add x₀ x z, horthogonal, mul_zero, add_zero]
    exact lt_add_of_pos_right _ (distSq_pos hne.symm)

end

/-! ## One step -/

namespace Search

section
variable [Field K] [LinearOrder K] [IsStrictOrderedRing K] {M : Matrix (Fin m) (Fin n) K}
  {b : Fin m → K} {x₀ z : Fin n → K} {U : Submodule K (Fin n → K)} {σ : Search m n K}

omit [LinearOrder K] [IsStrictOrderedRing K] in
/-- A step goes along the direction. -/
theorem next_sub (σ : Search m n K) : (σ.next M).x - σ.x = σ.alpha M • σ.p :=
  add_sub_cancel_left _ _

namespace Conjugate

/-- The next direction has the inner products of the direction with the space after the step, but
scaled. -/
theorem next_p_dotProduct (h : Conjugate M b x₀ U σ) (hγ : σ.gamma ≠ 0) {v : Fin n → K}
    (hv : v ∈ U ⊔ Submodule.span K {σ.s}) :
    (σ.next M).p ⬝ᵥ v = (σ.next M).gamma / σ.gamma * (σ.p ⬝ᵥ v) := by
  have hp : (σ.next M).p = (σ.next M).s + ((σ.next M).gamma / σ.gamma) • σ.p := rfl
  rw [hp, add_dotProduct, smul_dotProduct, h.next_orthogonal hγ hv, zero_add, smul_eq_mul]

theorem alpha_nonneg (h : Conjugate M b x₀ U σ) : 0 ≤ σ.alpha M :=
  div_nonneg h.gamma_nonneg (dotProduct_self_nonneg _)

theorem ratio_nonneg (h : Conjugate M b x₀ U σ) (hγ : σ.gamma ≠ 0) :
    0 ≤ (σ.next M).gamma / σ.gamma :=
  div_nonneg (h.next hγ).gamma_nonneg h.gamma_nonneg

/-- Where the normal residual is zero, no way to a solution is left that the searched space could
tell. -/
theorem ahead_of_gamma_eq_zero (h : Conjugate M b x₀ U σ) (hγ : σ.gamma = 0)
    (hz : Mᵀ *ᵥ (b - M *ᵥ z) = 0) {v : Fin n → K} (hv : v ∈ U ⊔ Submodule.span K {σ.s}) :
    (z - σ.x) ⬝ᵥ v = 0 := by
  obtain ⟨w, rfl⟩ := h.sup_le_rowSpace hv
  rw [Matrix.mulVecLin_apply, dotProduct_comm, transpose_mulVec_dotProduct,
    mulVec_sub_eq_zero (h.normal_eq_zero hγ) hz, dotProduct_zero]

/-- What is left of the way to a solution goes along the direction, as far as the searched space can
tell: it begins with the step, and what is left after that goes along the next direction, which has
the inner products of the direction. -/
theorem exists_ahead {U : Submodule K (Fin n → K)} {σ : Search m n K}
    (h : Conjugate M b x₀ U σ) (hz : Mᵀ *ᵥ (b - M *ᵥ z) = 0) :
    ∃ c, 0 ≤ c ∧ ∀ v ∈ U ⊔ Submodule.span K {σ.s}, (z - σ.x) ⬝ᵥ v = c * (σ.p ⬝ᵥ v) := by
  by_cases hγ : σ.gamma = 0
  · exact ⟨0, le_rfl, fun v hv => by rw [h.ahead_of_gamma_eq_zero hγ hz hv, zero_mul]⟩
  obtain ⟨c, hc, hahead⟩ := (h.next hγ).exists_ahead hz
  have hnonneg : 0 ≤ c * ((σ.next M).gamma / σ.gamma) + σ.alpha M :=
    add_nonneg (mul_nonneg hc (h.ratio_nonneg hγ)) h.alpha_nonneg
  refine ⟨_, hnonneg, ?_⟩
  intro v hv
  have hway : z - σ.x = (z - (σ.next M).x) + σ.alpha M • σ.p := by
    rw [← next_sub, sub_add_sub_cancel]
  rw [hway, add_dotProduct, smul_dotProduct, hahead v (Submodule.mem_sup_left hv),
    h.next_p_dotProduct hγ hv, smul_eq_mul]
  ring
-- the searched space grows, but not beyond the rank
termination_by M.rank - Module.finrank K U
decreasing_by
  have := h.finrank_lt hγ
  have := h.finrank_lt_rank hγ
  omega

/-- A step leads closer to every solution. -/
theorem next_closer (h : Conjugate M b x₀ U σ) (hγ : σ.gamma ≠ 0)
    (hz : Mᵀ *ᵥ (b - M *ᵥ z) = 0) : distSq (σ.next M).x z < distSq σ.x z := by
  -- the way that is left goes along the step
  have hahead : 0 ≤ ((σ.next M).x - σ.x) ⬝ᵥ (z - (σ.next M).x) := by
    obtain ⟨c, hc, hahead⟩ := (h.next hγ).exists_ahead hz
    have hnext : 0 ≤ (σ.next M).p ⬝ᵥ σ.p := by
      rw [h.next_p_dotProduct hγ h.p_mem]
      exact mul_nonneg (h.ratio_nonneg hγ) (dotProduct_self_nonneg _)
    rw [next_sub, smul_dotProduct, dotProduct_comm, hahead _ (Submodule.mem_sup_left h.p_mem),
      smul_eq_mul]
    exact mul_nonneg h.alpha_nonneg (mul_nonneg hc hnext)
  have hmoves : σ.x ≠ (σ.next M).x := by
    intro heq
    have hstep : (σ.next M).x - σ.x = σ.alpha M • σ.p := next_sub σ
    rw [← heq, sub_self] at hstep
    have hp : σ.p = 0 := (smul_eq_zero.1 hstep.symm).resolve_left (h.alpha_ne_zero hγ)
    apply h.product_ne_zero hγ
    rw [hp, Matrix.mulVec_zero, dotProduct_zero]
  have hpos := distSq_pos hmoves
  have hway := distSq_eq_add σ.x (σ.next M).x z
  linarith

end Conjugate

/-- As long as steps are taken from normal residuals that are not zero, each one leads closer to
every solution. -/
theorem after_succ_closer {k : Nat} (h : ∀ i < k + 1, (after M b x₀ i).gamma ≠ 0)
    (hz : Mᵀ *ᵥ (b - M *ᵥ z) = 0) :
    distSq (after M b x₀ (k + 1)).x z < distSq (after M b x₀ k).x z := by
  have hconj := (spans_after fun i hi => h i (Nat.lt_succ_of_lt hi)).conjugate
  rw [after_succ]
  exact hconj.next_closer (h k (Nat.lt_succ_self k)) hz

/-- The points of a run differ from its start by a vector of the row space. -/
theorem after_sub_mem_rowSpace {k : Nat} (h : ∀ i < k, (after M b x₀ i).gamma ≠ 0) :
    (after M b x₀ k).x - x₀ ∈ (Mᵀ).mulVecLin.range :=
  have hconj := (spans_after h).conjugate
  hconj.rowSpace hconj.moved

end

end Search

/-! ## The solver -/

/-- The states behind the steps of a solution, and its last state, hold the points `y`. -/
structure Solution.Visits (out : Solution K) (y : Nat → Fin n → K) : Prop where
  last_eq : out.last.x = List.ofFn (y out.trace.length)
  step_eq : ∀ (k : Nat) (hk : k < out.trace.length),
    out.trace[k].iterate.x = List.ofFn (y (k + 1))

section
variable [Field K] [LinearOrder K] {A : BlockMatrix K} {b : Operand K} {f x : List K}

/-- A run of the solver visits the points of the method, one step from a normal residual that is not
zero after the other. -/
theorem LinearSettings.solve_visits (hA : A.Regular)
    (hb : b.rightHandSide A.rows = .ok (.ofList f)) (hrows : A.rows ≤ f.length)
    (hx : A.columns ≤ x.length) (settings : LinearSettings K) :
    ∃ (M : Matrix (Fin f.length) (Fin x.length) K) (β : Fin f.length → K) (x₀ : Fin x.length → K)
      (out : Solution K), M = A.toMatrix _ _ ∧ β = Dense.toVector _ f ∧ x₀ = Dense.toVector _ x ∧
      settings.solve A b (.ofList x) = .ok out ∧
      out.Visits (fun k => (Search.after M β x₀ k).x) ∧
      ∀ i < out.trace.length, (Search.after M β x₀ i).gamma ≠ 0 := by
  obtain ⟨M, β, x₀, hM, hβ, hx₀, hsolve⟩ := settings.solve_ofList hA hb hrows hx
  obtain ⟨steps, -, hlast, hvisited, hgamma⟩ :=
    Search.solve_eq_after M settings.precision settings.maxIterations.toNat β x₀
  rw [SearchRun.toSolution, hlast, hvisited, List.map_map] at hsolve
  refine ⟨M, β, x₀, _, hM, hβ, hx₀, hsolve, ⟨?_, ?_⟩, ?_⟩
  · rw [List.length_map, List.length_range]
    rfl
  · intro k hk
    rw [List.getElem_map, List.getElem_range, Function.comp_apply, Search.toStep,
      ← Search.after_succ]
    rfl
  · rwa [List.length_map, List.length_range]

variable [IsStrictOrderedRing K]

/-- A run never leaves the row space through its start. So it does not move along a column that no
tile covers, and where it ends at a solution, every other solution is farther from the start. A
matrix with gaps is refused. -/
theorem LinearSettings.solve_nearest (hA : A.Admissible)
    (hb : b.rightHandSide A.rows = .ok (.ofList f)) (hrows : A.rows ≤ f.length)
    (hx : A.columns ≤ x.length) (settings : LinearSettings K) :
    (A.Solid →
      ∃ (D : Tensor K) (M : Matrix (Fin f.length) (Fin x.length) K) (β : Fin f.length → K)
        (out : Solution K) (y : Nat → Fin x.length → K),
        A.dense = .ok D ∧ D.shape = [A.rows.toNat, A.columns.toNat] ∧ M = D.toMatrix _ _ ∧
        β = Dense.toVector _ f ∧ y 0 = Dense.toVector _ x ∧
        settings.solve A b (.ofList x) = .ok out ∧ out.Visits y ∧
        (∀ k ≤ out.trace.length, y k - y 0 ∈ Submodule.span K (Set.range M.row)) ∧
        (∀ j : Fin x.length, (∀ t ∈ A.tiles, (j : Int) ∉ t.columns.positions) →
          ∀ k ≤ out.trace.length, y k j = y 0 j) ∧
        (Mᵀ *ᵥ (β - M *ᵥ y out.trace.length) = 0 →
          Nearest M β (y 0) (y out.trace.length) ∧
          (y 0 = 0 → ∀ z, Solves M β z → z ≠ y out.trace.length →
            y out.trace.length ⬝ᵥ y out.trace.length < z ⬝ᵥ z))) ∧
    (¬A.Solid → settings.solve A b (.ofList x) = .error .lengthMismatch) := by
  refine ⟨fun hsolid => ?_, fun hgap => settings.solve_eq_error hA hgap hb hrows hx⟩
  have hA : A.Regular := hA.regular hsolid
  obtain ⟨D, hD, hshape, hdense⟩ := hA.dense_eq
  obtain ⟨M, β, x₀, out, hM, hβ, hx₀, hsolve, hvisits, hgamma⟩ :=
    settings.solve_visits hA hb hrows hx
  have hmem : ∀ k ≤ out.trace.length,
      (Search.after M β x₀ k).x - x₀ ∈ (Mᵀ).mulVecLin.range := by
    intro k hk
    exact Search.after_sub_mem_rowSpace fun i hi => hgamma i (hi.trans_le hk)
  refine ⟨D, M, β, out, _, hD, hshape, hM.trans (hdense _ _).symm, hβ, hx₀, hsolve, hvisits,
    ?_, ?_, ?_⟩
  · intro k hk
    have hspan := hmem k hk
    rwa [Matrix.range_mulVecLin, Matrix.col_transpose] at hspan
  · intro j hj k hk
    obtain ⟨w, hw⟩ := hmem k hk
    -- the column of zeros
    have hcolumn : (Mᵀ *ᵥ w) j = 0 := by
      have hentry : ∀ i, M i j = 0 := by
        intro i
        rw [hM]
        exact hsolid.entry_eq_zero_of_uncovered hj i
      rw [Matrix.mulVec, dotProduct]
      exact Finset.sum_eq_zero fun i _ => mul_eq_zero_of_left (hentry i) (w i)
    exact sub_eq_zero.1 ((congrFun hw j).symm.trans hcolumn)
  · intro hnormal
    have hnearest := nearest_of_mem_rowSpace (hmem _ le_rfl) hnormal
    exact ⟨hnearest, fun hzero z hz hne => hnearest.dotProduct_self_lt hzero hz hne⟩

/-- One equation for two of three unknowns: the run keeps the third one, and of all solutions it
finds the one nearest to its start. -/
theorem LinearSettings.solve_nearest_untouched :
    let A : BlockMatrix ℚ := ⟨[1, 1], [.ofBounds 0 1 0 2]⟩
    let b : Operand ℚ := .dense (.ofList [2])
    let settings : LinearSettings ℚ := ⟨0, 1, false⟩
    A.Admissible ∧ A.Solid ∧ b.rightHandSide A.rows = .ok (.ofList [2]) ∧
      ∃ (M : Matrix (Fin 1) (Fin 3) ℚ) (out : Solution ℚ), M = !![1, 1, 0] ∧
        settings.solve A b (.ofList [0, 0, 5]) = .ok out ∧ out.last.x = [1, 1, 5] ∧
        Nearest M ![2] ![0, 0, 5] ![1, 1, 5] := by
  intro A b settings
  have hA : A.Admissible := by decide
  have hs : A.Solid := by decide
  have hb : b.rightHandSide A.rows = .ok (.ofList [2]) := rfl
  have hrun : (settings.solve A b (.ofList [0, 0, 5])).toOption.map (fun out => out.last.x) =
      some [1, 1, 5] := by
    decide +kernel
  obtain ⟨D, M, β, out, y, hD, -, hM, hβ, hy, hsolve, hvisits, -, -, hnearest⟩ :=
    (solve_nearest hA hb (by decide) (x := [0, 0, 5]) (by decide) settings).1 hs
  obtain ⟨out', hout', hx⟩ := exists_ok_of_map hrun
  obtain rfl : out = out' := Except.ok.inj (hsolve.symm.trans hout')
  -- the run determines the points, and the matrix is known
  have hlast : y out.trace.length = ![1, 1, 5] :=
    List.ofFn_injective (hvisits.last_eq.symm.trans hx)
  have hy₀ : y 0 = ![0, 0, 5] := hy.trans (by decide)
  have hβ' : β = ![2] := hβ.trans (by decide)
  obtain ⟨D', hD', -, hdense⟩ := (hA.regular hs).dense_eq
  obtain rfl : D = D' := Except.ok.inj (hD.symm.trans hD')
  have hM' : M = !![1, 1, 0] := hM.trans ((hdense _ _).trans (by decide +kernel))
  rw [hlast, hM', hβ', hy₀] at hnearest
  exact ⟨hA, hs, hb, _, out, rfl, hsolve, hx, (hnearest (by decide +kernel)).1⟩

/-- Every step of a run leads closer to every solution, so a run that takes a step ends closer to
every solution than it began, whatever ended it. A matrix with gaps is refused. -/
theorem LinearSettings.solve_approaches (hA : A.Admissible)
    (hb : b.rightHandSide A.rows = .ok (.ofList f)) (hrows : A.rows ≤ f.length)
    (hx : A.columns ≤ x.length) (settings : LinearSettings K) :
    (A.Solid →
      ∃ (D : Tensor K) (M : Matrix (Fin f.length) (Fin x.length) K) (β : Fin f.length → K)
        (out : Solution K) (y : Nat → Fin x.length → K),
        A.dense = .ok D ∧ D.shape = [A.rows.toNat, A.columns.toNat] ∧ M = D.toMatrix _ _ ∧
        β = Dense.toVector _ f ∧ y 0 = Dense.toVector _ x ∧
        settings.solve A b (.ofList x) = .ok out ∧ out.Visits y ∧
        ∀ z, Mᵀ *ᵥ (β - M *ᵥ z) = 0 →
          (∀ k < out.trace.length, distSq (y (k + 1)) z < distSq (y k) z) ∧
          (out.trace ≠ [] → distSq (y out.trace.length) z < distSq (y 0) z)) ∧
    (¬A.Solid → settings.solve A b (.ofList x) = .error .lengthMismatch) := by
  refine ⟨fun hsolid => ?_, fun hgap => settings.solve_eq_error hA hgap hb hrows hx⟩
  have hA : A.Regular := hA.regular hsolid
  obtain ⟨D, hD, hshape, hdense⟩ := hA.dense_eq
  obtain ⟨M, β, x₀, out, hM, hβ, hx₀, hsolve, hvisits, hgamma⟩ :=
    settings.solve_visits hA hb hrows hx
  refine ⟨D, M, β, out, _, hD, hshape, hM.trans (hdense _ _).symm, hβ, hx₀, hsolve, hvisits, ?_⟩
  intro z hz
  have hcloser : ∀ k < out.trace.length,
      distSq (Search.after M β x₀ (k + 1)).x z < distSq (Search.after M β x₀ k).x z := by
    intro k hk
    exact Search.after_succ_closer (fun i hi => hgamma i (by omega)) hz
  refine ⟨hcloser, ?_⟩
  intro htrace
  have hanti : StrictAntiOn (fun k => distSq (Search.after M β x₀ k).x z)
      (Set.Iic out.trace.length) := strictAntiOn_Iic_of_succ_lt hcloser
  exact hanti (Nat.zero_le _) (le_refl out.trace.length) (List.length_pos_iff.2 htrace)

/-- A run that its budget ends after one of two steps. -/
theorem LinearSettings.solve_approaches_exhausted :
    let A : BlockMatrix ℚ := ⟨[1, 0, 0, 2], [.ofBounds 0 2 0 2]⟩
    let b : Operand ℚ := .dense (.ofList [1, 2])
    let settings : LinearSettings ℚ := ⟨0, 1, false⟩
    A.Admissible ∧ A.Solid ∧ b.rightHandSide A.rows = .ok (.ofList [1, 2]) ∧
      ∃ (out : Solution ℚ) (y : Fin 2 → ℚ), settings.solve A b (.ofList [0, 0]) = .ok out ∧
        out.ending = .exhausted ∧ out.last.x = List.ofFn y ∧
        distSq y ![1, 1] < distSq ![0, 0] ![1, 1] := by
  intro A b settings
  have hA : A.Admissible := by decide
  have hs : A.Solid := by decide
  have hb : b.rightHandSide A.rows = .ok (.ofList [1, 2]) := rfl
  have hrun : (settings.solve A b (.ofList [0, 0])).toOption.map
      (fun out => (out.ending, out.trace.length)) = some (.exhausted, 1) := by
    decide +kernel
  obtain ⟨D, M, β, out, y, hD, -, hM, hβ, hy, hsolve, hvisits, hcloser⟩ :=
    (solve_approaches hA hb (by decide) (x := [0, 0]) (by decide) settings).1 hs
  obtain ⟨out', hout', hvalues⟩ := exists_ok_of_map hrun
  obtain rfl : out = out' := Except.ok.inj (hsolve.symm.trans hout')
  obtain ⟨hending, hlength⟩ : out.ending = .exhausted ∧ out.trace.length = 1 := by
    simpa using hvalues
  have htrace : out.trace ≠ [] := List.length_pos_iff.1 (by omega)
  have hy₀ : y 0 = ![0, 0] := hy.trans (by decide)
  have hβ' : β = ![1, 2] := hβ.trans (by decide)
  obtain ⟨D', hD', -, hdense⟩ := (hA.regular hs).dense_eq
  obtain rfl : D = D' := Except.ok.inj (hD.symm.trans hD')
  have hM' : M = !![1, 0; 0, 2] := hM.trans ((hdense _ _).trans (by decide +kernel))
  have hnormal : Mᵀ *ᵥ (β - M *ᵥ ![1, 1]) = 0 := by
    rw [hM', hβ']
    decide +kernel
  exact ⟨hA, hs, hb, out, _, hsolve, hending, hvisits.last_eq, hy₀ ▸ (hcloser _ hnormal).2 htrace⟩

end

end LeastSquares
