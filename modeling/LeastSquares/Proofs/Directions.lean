import LeastSquares.Proofs.Movement
import LeastSquares.Proofs.Loops

/-!
# Search directions

The solver also ends where the matrix takes the search direction to zero, and counts that as
convergence. In exact arithmetic it never happens. Whenever the loop is at its head the state is one
of the method between two steps (`Iterate.Searches`), and its normal residual is not zero. The
direction is as long along the normal residual as the normal residual itself, and what the matrix
takes to zero is orthogonal to every normal residual (`Iterate.Searches.ahead`).

So a run that converged for another reason than a small movement is at a point where the normal
residual is zero (`LinearSettings.solve_directions`).
-/

open scoped Matrix

namespace LeastSquares

variable {K : Type} {m n : Nat} [Field K] {M : Matrix (Fin m) (Fin n) K} {b : Fin m → K}
  {x₀ : Fin n → K} {it : Iterate K}

/-! ## The head of the loop -/

/-- A state of the method between two steps from `x₀`, at a normal residual that is not zero. -/
def Iterate.Searches (M : Matrix (Fin m) (Fin n) K) (b : Fin m → K) (x₀ : Fin n → K)
    (it : Iterate K) : Prop :=
  ∃ U σ, Search.Conjugate M b x₀ U σ ∧ σ.gamma ≠ 0 ∧ it = σ.toIterate

variable [LinearOrder K]

/-- What the direction of a state has to do with its normal residual and with the matrix. -/
structure Iterate.Ahead (M : Matrix (Fin m) (Fin n) K) (it : Iterate K) : Prop where
  dot_eq : Dense.dot it.s it.p = it.gamma
  gamma_pos : 0 < it.gamma
  product_ne : ∃ p, it.p = List.ofFn p ∧ M *ᵥ p ≠ 0

variable [IsStrictOrderedRing K]

/-- Between two steps, at a normal residual that is not zero, the direction leads on. -/
theorem Iterate.Searches.ahead (h : it.Searches M b x₀) : it.Ahead M := by
  obtain ⟨U, σ, hσ, hγ, rfl⟩ := h
  refine ⟨?_, lt_of_le_of_ne hσ.gamma_nonneg hγ.symm, σ.p, rfl, fun hzero => ?_⟩
  · exact (Dense.dot_ofFn _ _).trans hσ.normal_dotProduct
  · apply hσ.product_ne_zero hγ
    rw [hzero, dotProduct_zero]

variable {A : BlockMatrix K} {settings : LinearSettings K} {q : List K} {step : SearchStep K}
  {heads : List (Iterate K)} {out : Solution K}

omit [LinearOrder K] [IsStrictOrderedRing K] in
/-- The start of a run whose normal residual is not zero. -/
theorem Search.searches_start (h : (Search.start M b x₀).gamma ≠ 0) :
    (Search.start M b x₀).toIterate.Searches M b x₀ :=
  ⟨⊥, _, Conjugate.start M b x₀, h, rfl⟩

namespace LinearSystem

/-- A step from between two steps is one of the method. -/
theorem Takes.exists_conjugate (hA : A.Regular) (hm : A.rows ≤ m) (hn : A.columns ≤ n)
    (h : it.Searches (A.toMatrix m n) b x₀)
    (htakes : (⟨A, m, n⟩ : LinearSystem K).Takes it q step) :
    ∃ U σ, Search.Conjugate (A.toMatrix m n) b x₀ U σ ∧ step.iterate = σ.toIterate := by
  obtain ⟨U, σ, hσ, hγ, rfl⟩ := h
  have hq : q = List.ofFn (A.toMatrix m n *ᵥ σ.p) :=
    Except.ok.inj (htakes.forward_eq.symm.trans (forward_ofFn hA hm hn σ.p))
  have hstep : step = σ.toStep (A.toMatrix m n) := by
    have hadvance := htakes.advance_eq
    rw [hq, LinearSystem.advance_eq hA hm hn] at hadvance
    exact Except.ok.inj hadvance.symm
  exact ⟨_, _, hσ.next hγ, by rw [hstep]; rfl⟩

/-- Whenever the loop is at its head, the state is between two steps. -/
theorem Loops.searches (hA : A.Regular) (hm : A.rows ≤ m) (hn : A.columns ≤ n)
    (h : (⟨A, m, n⟩ : LinearSystem K).Loops settings it heads out)
    (hit : it.Searches (A.toMatrix m n) b x₀) :
    ∀ head ∈ heads, head.Searches (A.toMatrix m n) b x₀ := by
  refine h.forall_heads hit fun hsearches htakes hgamma => ?_
  obtain ⟨U, σ, hσ, heq⟩ := htakes.exists_conjugate hA hm hn hsearches
  refine ⟨U, σ, hσ, fun hzero => hgamma ?_, heq⟩
  rw [beq_iff_eq, heq]
  exact hzero

/-- The loop ends between two steps, and not for its direction. Where the normal residual vanished,
it is zero. -/
theorem Loops.exists_conjugate (hA : A.Regular) (hm : A.rows ≤ m) (hn : A.columns ≤ n)
    (h : (⟨A, m, n⟩ : LinearSystem K).Loops settings it heads out)
    (hit : it.Searches (A.toMatrix m n) b x₀) :
    out.ending ≠ .nullDirection ∧
      ∃ U σ, Search.Conjugate (A.toMatrix m n) b x₀ U σ ∧ out.last = σ.toIterate ∧
        (out.ending = .vanished → σ.gamma = 0) := by
  obtain ⟨head, hmem, hend⟩ := h.exists_head
  have hhead := h.searches hA hm hn hit head hmem
  rcases hend with ⟨hending, hlast⟩ | ⟨-, -, q, hforward, hproduct⟩ |
    ⟨q, step, htakes, hlast, hending⟩
  · obtain ⟨U, σ, hσ, -, heq⟩ := hhead
    rw [hending]
    exact ⟨nofun, U, σ, hσ, hlast.trans heq, nofun⟩
  · -- the direction has a product that is not zero
    obtain ⟨U, σ, hσ, hγ, rfl⟩ := hhead
    obtain rfl := Except.ok.inj (hforward.symm.trans (forward_ofFn hA hm hn σ.p))
    rw [Dense.normSq_ofFn, beq_iff_eq] at hproduct
    exact absurd hproduct (hσ.product_ne_zero hγ)
  · obtain ⟨U, σ, hσ, heq⟩ := htakes.exists_conjugate hA hm hn hhead
    rw [heq] at hlast hending
    rcases hending with hending | ⟨hending, hgamma⟩
    · rw [hending]
      exact ⟨nofun, U, σ, hσ, hlast, nofun⟩
    · rw [hending]
      exact ⟨nofun, U, σ, hσ, hlast, fun _ => beq_iff_eq.1 hgamma⟩

end LinearSystem

/-! ## The solver -/

variable {b : Operand K} {f x : List K}

/-- The head of the loop of a run, and its end. -/
theorem LinearSettings.Runs.exists_conjugate (hA : A.Regular)
    (hb : b.rightHandSide A.rows = .ok (.ofList f)) (hrows : A.rows ≤ f.length)
    (hx : A.columns ≤ x.length) (h : settings.Runs A b (.ofList x) heads out) :
    (∀ it ∈ heads, it.Searches (A.toMatrix f.length x.length) (Dense.toVector _ f)
        (Dense.toVector _ x)) ∧
      out.ending ≠ .nullDirection ∧
      ∃ U σ, Search.Conjugate (A.toMatrix f.length x.length) (Dense.toVector _ f)
          (Dense.toVector _ x) U σ ∧ out.last = σ.toIterate ∧
        (out.ending.converged = true → out.ending ≠ .smallMovement → σ.gamma = 0) := by
  have hstart := LinearSystem.start_eq hA hrows hx (Dense.toVector _ f) (Dense.toVector _ x)
  rw [Dense.ofFn_toVector, Dense.ofFn_toVector] at hstart
  obtain ⟨first, hfirst, ⟨hgamma, rfl, rfl⟩ | ⟨hgamma, hloops⟩⟩ := h.of_ofList hb
  · obtain rfl := Except.ok.inj (hfirst.symm.trans hstart)
    exact ⟨nofun, nofun, ⊥, _, Search.Conjugate.start .., rfl, fun _ _ => beq_iff_eq.1 hgamma⟩
  · obtain rfl := Except.ok.inj (hfirst.symm.trans hstart)
    have hfirst := Search.searches_start fun hzero => hgamma (beq_iff_eq.2 hzero)
    obtain ⟨hdirection, U, σ, hσ, hlast, hvanished⟩ :=
      hloops.exists_conjugate hA hrows hx hfirst
    refine ⟨hloops.searches hA hrows hx hfirst, hdirection, U, σ, hσ, hlast, fun hend hmove => ?_⟩
    have hloop := hloops.ending_ne_stationary
    cases hout : out.ending with
    | vanished => exact hvanished hout
    | stationary => exact absurd hout hloop
    | nullDirection => exact absurd hout hdirection
    | smallMovement => exact absurd hout hmove
    | exhausted =>
      rw [hout] at hend
      cases hend

/-- Whenever a run is at the head of its loop, its direction is as long along the normal residual as
the normal residual, which is not zero, and the matrix does not take the direction to zero. So no
run ends for its direction, and where one converged for another reason than a small movement, the
normal residual is zero. A matrix with gaps is refused. -/
theorem LinearSettings.solve_directions (hA : A.Admissible)
    (hb : b.rightHandSide A.rows = .ok (.ofList f)) (hrows : A.rows ≤ f.length)
    (hx : A.columns ≤ x.length) (settings : LinearSettings K) :
    (A.Solid →
      ∃ (D : Tensor K) (M : Matrix (Fin f.length) (Fin x.length) K) (β : Fin f.length → K)
        (out : Solution K) (y : Fin x.length → K),
        A.dense = .ok D ∧ D.shape = [A.rows.toNat, A.columns.toNat] ∧ M = D.toMatrix _ _ ∧
        β = Dense.toVector _ f ∧ settings.solve A b (.ofList x) = .ok out ∧
        (∃ heads, settings.Runs A b (.ofList x) heads out) ∧
        (∀ heads, settings.Runs A b (.ofList x) heads out → ∀ it ∈ heads, it.Ahead M) ∧
        out.ending ≠ .nullDirection ∧ out.last.x = List.ofFn y ∧
        (out.ending.converged = true → out.ending ≠ .smallMovement →
          Mᵀ *ᵥ (β - M *ᵥ y) = 0)) ∧
    (¬A.Solid → settings.solve A b (.ofList x) = .error .lengthMismatch) := by
  refine ⟨fun hsolid => ?_, fun hgap => settings.solve_eq_error hA hgap hb hrows hx⟩
  have hA : A.Regular := hA.regular hsolid
  obtain ⟨D, hD, hshape, hdense⟩ := hA.dense_eq
  obtain ⟨_, _, _, rfl, rfl, rfl, hsolve⟩ := settings.solve_ofList hA hb hrows hx
  obtain ⟨heads, hruns⟩ := LinearSettings.solve_eq_ok.1 hsolve
  obtain ⟨-, hdirection, U, σ, hσ, hlast, hzero⟩ := hruns.exists_conjugate hA hb hrows hx
  refine ⟨D, _, _, _, σ.x, hD, hshape, (hdense _ _).symm, rfl, hsolve, ⟨heads, hruns⟩,
    fun heads' hruns' it hit => ?_, hdirection, congrArg Iterate.x hlast, fun hend hmove => ?_⟩
  · exact ((hruns'.exists_conjugate hA hb hrows hx).1 it hit).ahead
  · exact hσ.normal_eq_zero (hzero hend hmove)

/-- Two equations with one left side, whose right sides differ, for three unknowns of which the
third is in neither: the matrix takes many directions to zero, and the run ends where the normal
residual vanished. -/
theorem LinearSettings.solve_directions_rankDeficient :
    let A : BlockMatrix ℚ := ⟨[1, 2, 1, 2], [.ofBounds 0 2 0 2]⟩
    let b : Operand ℚ := .dense (.ofList [1, 4])
    let settings : LinearSettings ℚ := ⟨0, 5, false⟩
    A.Admissible ∧ A.Solid ∧ b.rightHandSide A.rows = .ok (.ofList [1, 4]) ∧
      ∃ (M : Matrix (Fin 2) (Fin 3) ℚ) (heads : List (Iterate ℚ)) (out : Solution ℚ)
        (y : Fin 3 → ℚ), M = !![1, 2, 0; 1, 2, 0] ∧
        settings.solve A b (.ofList [0, 0, 7]) = .ok out ∧
        settings.Runs A b (.ofList [0, 0, 7]) heads out ∧ (∀ it ∈ heads, it.Ahead M) ∧
        out.ending = .vanished ∧ out.last.x = List.ofFn y ∧
        Mᵀ *ᵥ (![1, 4] - M *ᵥ y) = 0 := by
  intro A b settings
  have hA : A.Admissible := by decide
  have hs : A.Solid := by decide
  have hb : b.rightHandSide A.rows = .ok (.ofList [1, 4]) := rfl
  have hrun : (settings.solve A b (.ofList [0, 0, 7])).toOption.map (·.ending) =
      some .vanished := by
    decide +kernel
  obtain ⟨D, M, β, out, y, hD, -, hM, hβ, hsolve, ⟨heads, hruns⟩, hheads, -, hlast, hnormal⟩ :=
    (solve_directions hA hb (by decide) (x := [0, 0, 7]) (by decide) settings).1 hs
  obtain ⟨out', hout', hending⟩ := exists_ok_of_map hrun
  obtain rfl : out = out' := Except.ok.inj (hsolve.symm.trans hout')
  -- the run determines the ending, and the matrix is known
  obtain ⟨D', hD', -, hdense⟩ := (hA.regular hs).dense_eq
  obtain rfl : D = D' := Except.ok.inj (hD.symm.trans hD')
  have hM' : M = !![1, 2, 0; 1, 2, 0] := hM.trans ((hdense _ _).trans (by decide +kernel))
  have hβ' : β = ![1, 4] := hβ.trans (by decide)
  rw [hending, hβ'] at hnormal
  exact ⟨hA, hs, hb, M, heads, out, y, hM', hsolve, hruns, hheads heads hruns, hending, hlast,
    hnormal rfl nofun⟩

end LeastSquares
