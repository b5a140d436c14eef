import LeastSquares.Proofs.Termination

/-!
# Optimality of iterates

After `k` steps of conjugate gradients the directions span the Krylov space of the normal equations
(`Search.Spans`): what the first `k` powers of the matrix of the normal equations make
of the first normal residual (`krylov`). The normal residual is orthogonal to that space, so among
all points that the space leads to from the start, the iterate has the shortest residual
(`Search.Conjugate.least`), and each step makes the residual shorter (`Search.Conjugate.next_lt`).

A run takes its steps one after the other from normal residuals that are not zero
(`Search.run_eq_iterate`). So whatever ends a run of the solver, each of its iterates is optimal and
shorter than the one before (`LinearSettings.solve_optimal`).
-/

open scoped Matrix

namespace LeastSquares

variable {K : Type} {m n : Nat}

/-! ## Krylov spaces -/

section
variable [CommRing K] {N : Matrix (Fin n) (Fin n) K} {v : Fin n → K}

/-- The space spanned by what the first `k` powers of a matrix make of a vector. -/
def krylov (N : Matrix (Fin n) (Fin n) K) (v : Fin n → K) (k : Nat) : Submodule K (Fin n → K) :=
  Submodule.span K ((fun i => N ^ i *ᵥ v) '' Set.Iio k)

@[simp] theorem krylov_zero : krylov N v 0 = ⊥ := by
  have hnone : Set.Iio (0 : Nat) = ∅ := Set.Iio_eq_empty_iff.2 isMin_bot
  rw [krylov, hnone, Set.image_empty, Submodule.span_empty]

theorem krylov_succ (k : Nat) :
    krylov N v (k + 1) = krylov N v k ⊔ Submodule.span K {N ^ k *ᵥ v} := by
  have hmore : Set.Iio (k + 1) = insert k (Set.Iio k) := Order.Iio_succ_eq_insert k
  rw [krylov, hmore, Set.image_insert_eq, Submodule.span_insert, sup_comm]
  rfl

theorem pow_mulVec_mem_krylov (k : Nat) : N ^ k *ᵥ v ∈ krylov N v (k + 1) :=
  Submodule.subset_span ⟨k, Nat.lt_succ_self k, rfl⟩

/-- The matrix leads from one Krylov space to the next. -/
theorem mulVec_mem_krylov {k : Nat} {u : Fin n → K} (hu : u ∈ krylov N v k) :
    N *ᵥ u ∈ krylov N v (k + 1) := by
  have hle : (krylov N v k).map N.mulVecLin ≤ krylov N v (k + 1) := by
    refine (Submodule.map_span_le _ _ _).2 ?_
    rintro _ ⟨i, hi, rfl⟩
    refine Submodule.subset_span ⟨i + 1, Nat.succ_lt_succ hi, ?_⟩
    rw [Matrix.mulVecLin_apply, Matrix.mulVec_mulVec, ← pow_succ']
  exact hle (Submodule.mem_map_of_mem hu)

end

/-! ## Steps one after the other -/

namespace Search

section
variable [Field K]

/-- The state behind `k` steps from a starting point. -/
def after (M : Matrix (Fin m) (Fin n) K) (b : Fin m → K) (x₀ : Fin n → K) (k : Nat) :
    Search m n K := (next M)^[k] (start M b x₀)

theorem after_succ (M : Matrix (Fin m) (Fin n) K) (b : Fin m → K) (x₀ : Fin n → K) (k : Nat) :
    after M b x₀ (k + 1) = (after M b x₀ k).next M := Function.iterate_succ_apply' ..

theorem steps_after (M : Matrix (Fin m) (Fin n) K) (b : Fin m → K) (x₀ : Fin n → K) (k : Nat) :
    (after M b x₀ k).steps = k := by
  induction k with
  | zero => rfl
  | succ k ih =>
    rw [after_succ]
    exact congrArg (· + 1) ih

variable [LinearOrder K] {M : Matrix (Fin m) (Fin n) K} {precision : K}

/-- A run takes its steps one after the other, each from a normal residual that is not zero. -/
theorem run_eq_iterate {budget : Nat} {σ : Search m n K} (hγ : σ.gamma ≠ 0) :
    ∃ k ≤ budget, (run M precision budget σ).last = (next M)^[k] σ ∧
      (run M precision budget σ).visited = (List.range k).map (fun i => (next M)^[i] σ) ∧
      ∀ i < k, ((next M)^[i] σ).gamma ≠ 0 := by
  -- what is to be shown of the steps where the run takes only one
  have hone : ∀ {σ : Search m n K}, σ.gamma ≠ 0 → ∀ i < 1, ((next M)^[i] σ).gamma ≠ 0 := by
    intro σ hγ i hi
    rwa [Nat.lt_one_iff.1 hi]
  induction budget generalizing σ with
  | zero => exact ⟨0, le_rfl, rfl, rfl, nofun⟩
  | succ budget ih =>
    rw [run]
    split
    · exact ⟨0, Nat.zero_le _, rfl, rfl, fun i hi => absurd hi (Nat.not_lt_zero i)⟩
    · split
      · exact ⟨1, Nat.le_add_left .., rfl, rfl, hone hγ⟩
      · split
        · exact ⟨1, Nat.le_add_left .., rfl, rfl, hone hγ⟩
        · rename_i hne
          obtain ⟨k, hk, hlast, hvisited, hgamma⟩ := ih hne
          refine ⟨k + 1, Nat.succ_le_succ hk, hlast, ?_, fun i hi => ?_⟩
          · rw [List.range_succ_eq_map, List.map_cons, List.map_map]
            exact congrArg (σ :: ·) hvisited
          · cases i with
            | zero => exact hγ
            | succ i => exact hgamma i (Nat.lt_of_succ_lt_succ hi)

/-- The steps that a run from a starting point takes. -/
theorem solve_eq_after (M : Matrix (Fin m) (Fin n) K) (precision : K) (budget : Nat)
    (b : Fin m → K) (x₀ : Fin n → K) :
    ∃ k ≤ budget, (solve M precision budget b x₀).last = after M b x₀ k ∧
      (solve M precision budget b x₀).visited = (List.range k).map (after M b x₀) ∧
      ∀ i < k, (after M b x₀ i).gamma ≠ 0 := by
  rw [solve]
  split
  · exact ⟨0, Nat.zero_le _, rfl, rfl, fun i hi => absurd hi (Nat.not_lt_zero i)⟩
  · rename_i hγ
    exact run_eq_iterate hγ

end

section
variable [Field K] {M : Matrix (Fin m) (Fin n) K} {b : Fin m → K} {x₀ v : Fin n → K} {k : Nat}
  {σ : Search m n K}

/-- What holds after `k` steps: the directions span the Krylov space of a vector, and the normal
residual extends it to the next one. -/
structure Spans (M : Matrix (Fin m) (Fin n) K) (b : Fin m → K) (x₀ v : Fin n → K) (k : Nat)
    (σ : Search m n K) : Prop where
  conjugate : Conjugate M b x₀ (krylov (Mᵀ * M) v k) σ
  krylov_eq : krylov (Mᵀ * M) v (k + 1) = krylov (Mᵀ * M) v k ⊔ Submodule.span K {σ.s}

/-- Before the first step nothing is spanned, and the first normal residual begins the space. -/
theorem Spans.start (M : Matrix (Fin m) (Fin n) K) (b : Fin m → K) (x₀ : Fin n → K) :
    Spans M b x₀ (Mᵀ *ᵥ (b - M *ᵥ x₀)) 0 (Search.start M b x₀) where
  conjugate := by
    rw [krylov_zero]
    exact Conjugate.start M b x₀
  krylov_eq := by
    rw [krylov_succ, pow_zero, Matrix.one_mulVec]
    rfl

variable [LinearOrder K] [IsStrictOrderedRing K]

/-- A step leads to the next Krylov space. -/
theorem Spans.next (h : Spans M b x₀ v k σ) (hγ : σ.gamma ≠ 0) :
    Spans M b x₀ v (k + 1) (σ.next M) := by
  have hnext := h.conjugate.next hγ
  rw [← h.krylov_eq] at hnext
  refine ⟨hnext, le_antisymm ?_ ?_⟩
  · rw [krylov_succ (k + 1), sup_le_iff, Submodule.span_singleton_le_iff_mem, pow_succ',
      ← Matrix.mulVec_mulVec, ← Matrix.mulVec_mulVec]
    exact ⟨le_sup_left, hnext.krylov _ (pow_mulVec_mem_krylov k)⟩
  · have hs : σ.s ∈ krylov (Mᵀ * M) v (k + 1) := by
      rw [h.krylov_eq]
      exact Submodule.mem_sup_right (Submodule.mem_span_singleton_self _)
    have hp : σ.p ∈ krylov (Mᵀ * M) v (k + 1) := by
      rw [h.krylov_eq]
      exact h.conjugate.p_mem
    have hle : krylov (Mᵀ * M) v (k + 1) ≤ krylov (Mᵀ * M) v (k + 2) := by
      rw [krylov_succ (k + 1)]
      exact le_sup_left
    rw [sup_le_iff, Submodule.span_singleton_le_iff_mem, h.conjugate.next_s, Matrix.mulVec_mulVec]
    exact ⟨hle, sub_mem (hle hs) (Submodule.smul_mem _ _ (mulVec_mem_krylov hp))⟩

/-- As long as steps are taken from normal residuals that are not zero, they span Krylov spaces. -/
theorem spans_after {k : Nat} (h : ∀ i < k, (after M b x₀ i).gamma ≠ 0) :
    Spans M b x₀ (Mᵀ *ᵥ (b - M *ᵥ x₀)) k (after M b x₀ k) := by
  induction k with
  | zero => exact Spans.start M b x₀
  | succ k ih =>
    rw [after_succ]
    exact (ih fun i hi => h i (Nat.lt_succ_of_lt hi)).next (h k (Nat.lt_succ_self k))

/-! ## Shorter and shortest residuals -/

namespace Conjugate

variable {U : Submodule K (Fin n → K)}

/-- Among the points that the searched space leads to, the iterate has the shortest residual. -/
theorem least (h : Conjugate M b x₀ U σ) {z : Fin n → K} (hz : z - x₀ ∈ U) :
    (b - M *ᵥ σ.x) ⬝ᵥ (b - M *ᵥ σ.x) ≤ (b - M *ᵥ z) ⬝ᵥ (b - M *ᵥ z) := by
  refine dotProduct_self_le_of_orthogonal ?_
  have hmem : σ.x - z ∈ U := by
    rw [← sub_sub_sub_cancel_right σ.x z x₀]
    exact sub_mem h.moved hz
  rw [← h.residual, ← transpose_mulVec_dotProduct, ← h.normal, h.orthogonal _ hmem]

/-- A step makes the residual shorter, by the squared length of the normal residual times the
length of the step. -/
theorem next_residual (h : Conjugate M b x₀ U σ) (hγ : σ.gamma ≠ 0) :
    (σ.next M).r ⬝ᵥ (σ.next M).r = σ.r ⬝ᵥ σ.r - σ.alpha M * σ.gamma := by
  have hcross : σ.r ⬝ᵥ M *ᵥ σ.p = σ.gamma := by
    rw [← transpose_mulVec_dotProduct, ← h.normal, h.normal_dotProduct]
  have hr : (σ.next M).r = σ.r - σ.alpha M • (M *ᵥ σ.p) := rfl
  rw [hr, sub_dotProduct, dotProduct_sub, dotProduct_sub, smul_dotProduct, smul_dotProduct,
    dotProduct_smul, dotProduct_smul, dotProduct_comm (M *ᵥ σ.p) σ.r, hcross]
  simp only [smul_eq_mul, h.alpha_mul hγ]
  ring

theorem next_lt (h : Conjugate M b x₀ U σ) (hγ : σ.gamma ≠ 0) :
    (σ.next M).r ⬝ᵥ (σ.next M).r < σ.r ⬝ᵥ σ.r := by
  have hpos : 0 < σ.gamma := lt_of_le_of_ne h.gamma_nonneg hγ.symm
  have hq : 0 < M *ᵥ σ.p ⬝ᵥ M *ᵥ σ.p :=
    lt_of_le_of_ne (dotProduct_self_nonneg _) (h.product_ne_zero hγ).symm
  rw [h.next_residual hγ]
  exact sub_lt_self _ (mul_pos (div_pos hpos hq) hpos)

end Conjugate

end

end Search

/-! ## The solver -/

/-- What holds of the state behind `k` steps from `x₀`: its vectors are those of the point `y`, and
`y` has the shortest residual of all points that the Krylov space leads to. -/
structure Iterate.Optimal [Field K] [LinearOrder K] (M : Matrix (Fin m) (Fin n) K) (b : Fin m → K)
    (x₀ y : Fin n → K) (k : Nat) (it : Iterate K) : Prop where
  x_eq : it.x = List.ofFn y
  r_eq : it.r = List.ofFn (b - M *ᵥ y)
  s_eq : it.s = List.ofFn (Mᵀ *ᵥ (b - M *ᵥ y))
  gamma_eq : it.gamma = Dense.normSq it.s
  steps_eq : it.steps = k
  mem_krylov : y - x₀ ∈ krylov (Mᵀ * M) (Mᵀ *ᵥ (b - M *ᵥ x₀)) k
  least : ∀ z, z - x₀ ∈ krylov (Mᵀ * M) (Mᵀ *ᵥ (b - M *ᵥ x₀)) k →
    (b - M *ᵥ y) ⬝ᵥ (b - M *ᵥ y) ≤ (b - M *ᵥ z) ⬝ᵥ (b - M *ᵥ z)

section
variable [Field K] [LinearOrder K] [IsStrictOrderedRing K]

/-- The state behind steps from normal residuals that are not zero is optimal. -/
theorem Search.after_optimal {M : Matrix (Fin m) (Fin n) K} {b : Fin m → K} {x₀ : Fin n → K}
    {k : Nat} (h : ∀ i < k, (after M b x₀ i).gamma ≠ 0) :
    (after M b x₀ k).toIterate.Optimal M b x₀ (after M b x₀ k).x k := by
  have hconj := (spans_after h).conjugate
  exact {
    x_eq := rfl
    r_eq := congrArg List.ofFn hconj.residual
    s_eq := by rw [← hconj.residual, ← hconj.normal]; rfl
    gamma_eq := hconj.gamma_eq.trans (Dense.normSq_ofFn _).symm
    steps_eq := steps_after M b x₀ k
    mem_krylov := hconj.moved
    least := fun _ hz => hconj.least hz }

/-- A step from a normal residual that is not zero makes the residual shorter. -/
theorem Search.after_succ_lt {M : Matrix (Fin m) (Fin n) K} {b : Fin m → K} {x₀ : Fin n → K}
    {k : Nat} (h : ∀ i < k + 1, (after M b x₀ i).gamma ≠ 0) :
    (b - M *ᵥ (after M b x₀ (k + 1)).x) ⬝ᵥ (b - M *ᵥ (after M b x₀ (k + 1)).x) <
      (b - M *ᵥ (after M b x₀ k).x) ⬝ᵥ (b - M *ᵥ (after M b x₀ k).x) := by
  have hconj := (spans_after fun i hi => h i (Nat.lt_succ_of_lt hi)).conjugate
  rw [← (spans_after h).conjugate.residual, ← hconj.residual, after_succ]
  exact hconj.next_lt (h k (Nat.lt_succ_self k))

variable {A : BlockMatrix K} {b : Operand K} {f x : List K}

omit [IsStrictOrderedRing K] in
/-- The solver on lists that the matrix does not exceed is the method on the vectors they list. -/
theorem LinearSettings.solve_ofList (hA : A.Regular)
    (hb : b.rightHandSide A.rows = .ok (.ofList f)) (hrows : A.rows ≤ f.length)
    (hx : A.columns ≤ x.length) (settings : LinearSettings K) :
    ∃ (M : Matrix (Fin f.length) (Fin x.length) K) (β : Fin f.length → K) (x₀ : Fin x.length → K),
      M = A.toMatrix _ _ ∧ β = Dense.toVector _ f ∧ x₀ = Dense.toVector _ x ∧
      settings.solve A b (.ofList x) = .ok
        ((Search.solve M settings.precision settings.maxIterations.toNat β x₀).toSolution M) := by
  have hsolve := settings.solve_eq hA (f := Dense.toVector f.length f)
    (by rw [Dense.ofFn_toVector, hb]) hrows hx (Dense.toVector _ x)
  rw [Dense.ofFn_toVector] at hsolve
  exact ⟨_, _, _, rfl, rfl, rfl, hsolve⟩

/-- Whatever ends a run of the solver, each of its iterates has the shortest residual of all points
that the Krylov space leads to from the start, and a shorter one than the iterate before. A matrix
with gaps is refused before the first iterate. -/
theorem LinearSettings.solve_optimal (hA : A.Admissible)
    (hb : b.rightHandSide A.rows = .ok (.ofList f)) (hrows : A.rows ≤ f.length)
    (hx : A.columns ≤ x.length) (settings : LinearSettings K) :
    (A.Solid →
      ∃ (D : Tensor K) (M : Matrix (Fin f.length) (Fin x.length) K) (β : Fin f.length → K)
        (out : Solution K) (y : Nat → Fin x.length → K),
        A.dense = .ok D ∧ D.shape = [A.rows.toNat, A.columns.toNat] ∧ M = D.toMatrix _ _ ∧
        β = Dense.toVector _ f ∧ y 0 = Dense.toVector _ x ∧
        settings.solve A b (.ofList x) = .ok out ∧
        out.trace.length ≤ settings.maxIterations.toNat ∧
        out.last.Optimal M β (y 0) (y out.trace.length) out.trace.length ∧
        (∀ (k : Nat) (hk : k < out.trace.length),
          out.trace[k].iterate.Optimal M β (y 0) (y (k + 1)) (k + 1) ∧
          (β - M *ᵥ y (k + 1)) ⬝ᵥ (β - M *ᵥ y (k + 1)) < (β - M *ᵥ y k) ⬝ᵥ (β - M *ᵥ y k)) ∧
        (β - M *ᵥ y out.trace.length) ⬝ᵥ (β - M *ᵥ y out.trace.length) ≤
          (β - M *ᵥ y 0) ⬝ᵥ (β - M *ᵥ y 0)) ∧
    (¬A.Solid → settings.solve A b (.ofList x) = .error .lengthMismatch) := by
  refine ⟨fun hsolid => ?_, fun hgap => settings.solve_eq_error hA hgap hb hrows hx⟩
  have hA : A.Regular := hA.regular hsolid
  obtain ⟨D, hD, hshape, hdense⟩ := hA.dense_eq
  obtain ⟨M, β, x₀, hM, hβ, hx₀, hsolve⟩ := settings.solve_ofList hA hb hrows hx
  obtain ⟨steps, hsteps, hlast, hvisited, hgamma⟩ :=
    Search.solve_eq_after M settings.precision settings.maxIterations.toNat β x₀
  rw [SearchRun.toSolution, hlast, hvisited, List.map_map] at hsolve
  refine ⟨D, M, β, _, fun i => (Search.after M β x₀ i).x, hD, hshape, hM.trans (hdense _ _).symm,
    hβ, hx₀, hsolve, ?_, ?_, fun k hk => ?_, ?_⟩
  · rwa [List.length_map, List.length_range]
  · rw [List.length_map, List.length_range]
    exact Search.after_optimal hgamma
  · rw [List.length_map, List.length_range] at hk
    have hbefore := fun i (hi : i < k + 1) => hgamma i (hi.trans_le hk)
    refine ⟨?_, Search.after_succ_lt hbefore⟩
    rw [List.getElem_map, List.getElem_range, Function.comp_apply, Search.toStep,
      ← Search.after_succ]
    exact Search.after_optimal hbefore
  · rw [List.length_map, List.length_range]
    have hstart : x₀ - x₀ ∈ krylov (Mᵀ * M) (Mᵀ *ᵥ (β - M *ᵥ x₀)) steps := by
      rw [sub_self]
      exact zero_mem _
    exact (Search.after_optimal hgamma).least x₀ hstart

/-- A run on an overdetermined system of two overlapping tiles that a positive precision may stop.
-/
theorem LinearSettings.solve_optimal_overlapping :
    let A : BlockMatrix ℚ := ⟨[1, 2, 3, 4, 5, 6], [.ofBounds 0 2 0 2, .ofBounds 1 3 1 2]⟩
    let b : Operand ℚ := .dense (.ofList [1, 0, 2])
    let settings : LinearSettings ℚ := ⟨1 / 100, 2, false⟩
    A.Admissible ∧ A.Solid ∧ b.rightHandSide A.rows = .ok (.ofList [1, 0, 2]) ∧
      ∃ (out : Solution ℚ) (M : Matrix (Fin 3) (Fin 2) ℚ) (y : Fin 2 → ℚ),
        settings.solve A b (.ofList [1, 1]) = .ok out ∧
        out.last.Optimal M ![1, 0, 2] ![1, 1] y out.trace.length := by
  intro A b settings
  have hA : A.Admissible := by decide
  have hs : A.Solid := by decide
  have hb : b.rightHandSide A.rows = .ok (.ofList [1, 0, 2]) := rfl
  obtain ⟨D, M, β, out, y, -, -, -, rfl, hy, hsolve, -, hlast, -⟩ :=
    (solve_optimal hA hb (by decide) (x := [1, 1]) (by decide) settings).1 hs
  have hβ : Dense.toVector 3 ([1, 0, 2] : List ℚ) = ![1, 0, 2] := by decide
  have hx : Dense.toVector 2 ([1, 1] : List ℚ) = ![1, 1] := by decide
  rw [hy] at hlast
  exact ⟨hA, hs, hb, out, M, y out.trace.length, hsolve, hβ ▸ hx ▸ hlast⟩

end

end LeastSquares
