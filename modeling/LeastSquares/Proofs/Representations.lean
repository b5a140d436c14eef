import LeastSquares.Proofs.Krylov
import LeastSquares.Proofs.NormalEquations

/-!
# Representations of a linear system

A matrix can be cut into tiles in many ways, which may overlap, repeat or be empty and may reach
beyond the entries that count, and a right-hand side can be a list or a block vector. The solver
depends on none of that. Rows behind the last one that a tile reaches are zero, and so they add
nothing to the inner products that conjugate gradients see (`BlockMatrix.Regular.sameGram`,
`BlockMatrix.Regular.sameMoment`); so a run on a block matrix is the run of the method on any dense
axes that hold the matrix (`LinearSettings.solve_dense`), and whatever has the same dense form has
the same run (`LinearSolver.solve_congr_dense`).
-/

open scoped Matrix

namespace LeastSquares

variable {K : Type}

/-! ## Right-hand sides -/

/-- A right-hand side for a number of rows that is materialized to a list: by the solver itself, or,
as a block vector without negative bounds, to the length of the list. -/
inductive Operand.Materializes [Zero K] [Add K] (rows : Int) (f : List K) : Operand K → Prop
  | solver {b : Operand K} (h : b.rightHandSide rows = .ok (.ofList f)) : Materializes rows f b
  | dense {v : BlockVector K} (hv : v.Regular) (h : v.dense f.length = .ok f) :
    Materializes rows f (.sparse v)

section
variable [AddCommMonoid K] {rows : Int} {f : List K}

/-- A materialized block vector is as long as the dimension at least. -/
theorem BlockVector.dimension_le_of_dense {v : BlockVector K} {n : Int} {xs : List K}
    (h : v.dense n = .ok xs) : v.dimension ≤ n := (dense_eq_ok.1 h).1

/-- However long a regular block vector is materialized, it reads as its entries. -/
theorem BlockVector.Regular.getD_dense {v : BlockVector K} (hv : v.Regular) {n : Int}
    {xs : List K} (h : v.dense n = .ok xs) (i : Nat) : xs.getD i 0 = v.entry i :=
  congrFun (hv.toVector_dense (dimension_le_of_dense h) h (i + 1)) (Fin.last i)

/-- The solver reads the entries of a list from whatever is materialized to it. -/
theorem Operand.Materializes.rightHandSide_eq {b : Operand K} (h : b.Materializes rows f)
    (hf : rows ≤ f.length) :
    ∃ g : List K, b.rightHandSide rows = .ok (.ofList g) ∧ rows ≤ g.length ∧
      ∀ i, g.getD i 0 = f.getD i 0 := by
  cases h with
  | solver hb => exact ⟨f, hb, hf, fun i => rfl⟩
  | dense hv hdense =>
    rename_i v
    have hg := hv.dense_eq (le_max_right rows v.dimension)
    refine ⟨_, by rw [rightHandSide, hg]; rfl, ?_, fun i => ?_⟩
    · rw [List.length_ofFn]
      exact (le_max_left _ _).trans (Int.self_le_toNat _)
    · rw [hv.getD_dense hg, hv.getD_dense hdense]

end

/-! ## Dense axes -/

namespace BlockMatrix.Regular

variable {A A' : BlockMatrix K} {m m' n : Nat}

variable [Field K]

/-- Rows that the matrix does not reach add nothing to the inner products of its columns. -/
theorem sameGram (hA : A.Regular) (hm : A.rows ≤ m) (hm' : A.rows ≤ m') :
    SameGram (A.toMatrix m n) (A.toMatrix m' n) (Equiv.refl _) := by
  intro v w
  refine sum_fin_eq_sum_fin (k := A.rows.toNat) (g := fun i =>
    (∑ j : Fin n, A.entry i (j : Nat) * v j) * ∑ j : Fin n, A.entry i (j : Nat) * w j)
    (fun i hi => ?_) (Int.toNat_le.2 hm') (Int.toNat_le.2 hm)
  have hzero : ∑ j : Fin n, A.entry i (j : Nat) * v j = 0 := by
    refine Finset.sum_eq_zero fun j _ => ?_
    rw [hA.entry_eq_zero (by omega), zero_mul]
  rw [hzero, zero_mul]

/-- Rows that the matrix does not reach add nothing to the inner products of its columns with a
right-hand side. -/
theorem sameMoment (hA : A.Regular) (hm : A.rows ≤ m) (hm' : A.rows ≤ m') {f f' : List K}
    (hf : ∀ i, f.getD i 0 = f'.getD i 0) :
    SameMoment (A.toMatrix m n) (A.toMatrix m' n) (Equiv.refl _) (Dense.toVector m f)
      (Dense.toVector m' f') := by
  have hread : Dense.toVector m f = Dense.toVector m f' := funext fun i => hf i
  rw [hread]
  intro v
  refine sum_fin_eq_sum_fin (k := A.rows.toNat) (g := fun i =>
    f'.getD i 0 * ∑ j : Fin n, A.entry i (j : Nat) * v j)
    (fun i hi => ?_) (Int.toNat_le.2 hm') (Int.toNat_le.2 hm)
  have hzero : ∑ j : Fin n, A.entry i (j : Nat) * v j = 0 := by
    refine Finset.sum_eq_zero fun j _ => ?_
    rw [hA.entry_eq_zero (by omega), zero_mul]
  rw [hzero, mul_zero]

end BlockMatrix.Regular

/-! ## The solver -/

section
variable [Field K] [LinearOrder K] {A A' : BlockMatrix K} {b b' : Operand K} {f x : List K}

/-- The solver runs as the method does on dense axes that hold the matrix, the list that the
right-hand side is materialized to and the starting point. -/
theorem LinearSettings.solve_dense (hA : A.Regular) (hb : b.Materializes A.rows f)
    (hf : A.rows ≤ f.length) (hx : A.columns ≤ x.length) (settings : LinearSettings K) :
    ∃ (run : SearchRun f.length x.length K) (out : Solution K),
      run = Search.solve (A.toMatrix _ _) settings.precision settings.maxIterations.toNat
        (Dense.toVector _ f) (Dense.toVector _ x) ∧
      settings.solve A b (.ofList x) = .ok out ∧ out.last.x = List.ofFn run.last.x ∧
      out.last.steps = run.last.steps ∧ out.ending = run.ending := by
  obtain ⟨g, hg, hrows, hread⟩ := hb.rightHandSide_eq hf
  obtain ⟨M, β, x₀, rfl, rfl, rfl, hsolve⟩ := settings.solve_ofList hA hg hrows hx
  -- the solver has as many rows as it materialized, which need not be those of the list
  obtain ⟨hlast, hending⟩ := Search.solve_follows (hA.sameGram hrows hf)
    (hA.sameMoment hrows hf hread) settings.precision settings.maxIterations.toNat
    (Dense.toVector x.length x)
  exact ⟨_, _, rfl, hsolve, congrArg List.ofFn hlast.x_eq.symm, hlast.steps_eq.symm,
    hending.symm⟩

end

end LeastSquares
