import LeastSquares.Proofs.GlobalMinimum
import LeastSquares.Proofs.Iterates

/-!
# Resumed runs of the method of Gauss and Newton

A run that is cut short can be taken up where it ended: with `m` moves and then, from the assignment
that was reached, with `n` moves, the method reaches what it reaches with `m + n` moves at once
(`Minimizer.Settings.minimize_add`, `Minimizer.Settings.minimize_resume`). Nothing but the
assignment is handed over. The cost that a run carries along is the one that a new run computes, the
number of moves is not looked at, and a run that ended by a small gradient or by a cost that is not
finite ends in the same way again (`Minimizer.Settings.Stays`). Only the test of the latest move
looks back, at the cost before it, so a run that it ended is not resumed.
-/

namespace LeastSquares.Minimizer

variable {α : Type} [Zero α] [Add α] [Sub α] [Neg α] [Mul α] [Div α] [LT α] [DecidableLT α] [BEq α]
  [OfScientific α] [Elementary α]

/-- The settings with another budget. -/
def Settings.withBudget (settings : Settings α) (budget : Nat) : Settings α :=
  { settings with maxIterations := budget }

variable {settings : Settings α} {g : Graph α} {s moved : Assignment α} {cost newCost : α}
  {model : LinearModel α} {gradient : List α} {solution : Solution α} {budget index : Nat}
  {out : Outcome α}

namespace Settings

/-- A descent is told its budget, so it does not look at the one of the settings. -/
theorem descend_withBudget (n : Nat) :
    (settings.withBudget n).descend g (.fresh settings.linear) budget index s cost =
      settings.descend g (.fresh settings.linear) budget index s cost := by
  induction budget generalizing index s cost with
  | zero => rfl
  | succ budget ih =>
    have hlinear : settings.linear = (settings.withBudget n).linear := rfl
    rw [descend_add_one, hlinear, descend_add_one]
    simp only [← hlinear, ih]
    rfl

/-- Where a move is accepted and does not settle, the rest is a descent from behind it. -/
theorem Steps.descend_succ (step : settings.Steps g s model gradient solution moved newCost)
    (finite : isFinite newCost = true)
    (unsettled :
      ¬settings.settles (cost - newCost) cost (Elementary.norm solution.last.x) = true) :
    settings.descend g (.fresh settings.linear) (budget + 1) index s cost = (do
      let rest ← settings.descend g (.fresh settings.linear) budget (index + 1) moved newCost
      .ok ⟨rest.assignment, rest.ending,
        moveOf index cost gradient solution moved newCost :: rest.trace⟩) := by
  simp only [descend_add_one, step.linearize_eq, step.adjoint_eq, if_neg step.steep, step.solve_eq,
    step.move_eq, step.cost_eq, if_pos finite, if_neg unsettled, bind, Except.bind]

/-- The assignment that a descent reaches does not depend on the number of moves before it. -/
theorem descend_index (index index' : Nat) :
    Outcome.assignment <$> settings.descend g (.fresh settings.linear) budget index' s cost =
      Outcome.assignment <$> settings.descend g (.fresh settings.linear) budget index s cost := by
  induction budget generalizing index index' s cost with
  | zero => rfl
  | succ budget ih =>
    rw [descend_add_one, descend_add_one, map_bind, map_bind]
    refine bind_congr fun model => ?_
    rw [map_bind, map_bind]
    refine bind_congr fun gradient => ?_
    dsimp only
    split
    · rfl
    · simp only [map_bind]
      refine bind_congr fun solution => bind_congr fun moved => bind_congr fun newCost => ?_
      split
      · split
        · rfl
        · simp only [map_bind]
          exact ih ..
      · rfl

/-- Wherever a descent begins at an assignment with a budget, it ends there. -/
def Stays (settings : Settings α) (g : Graph α) (s : Assignment α) : Prop :=
  ∀ budget index cost,
    Outcome.assignment <$> settings.descend g (.fresh settings.linear) (budget + 1) index s cost =
      .ok s

/-- Without a budget a descent ends at its start, too. -/
theorem Stays.descend (h : settings.Stays g s) (budget index : Nat) (cost : α) :
    Outcome.assignment <$> settings.descend g (.fresh settings.linear) budget index s cost =
      .ok s := by
  cases budget with
  | zero => rfl
  | succ budget => exact h budget index cost

theorem stays_of_flat (linearize_eq : g.linearize s = .ok model)
    (adjoint_eq : model.matrix.adjoint (.sparse model.bias) = .ok gradient)
    (small : Elementary.norm gradient < settings.gradientNorm) : settings.Stays g s := by
  intro budget index cost
  rw [descend_eq_ok.2 (.flat linearize_eq adjoint_eq small)]
  rfl

theorem Steps.stays (step : settings.Steps g s model gradient solution moved newCost)
    (infinite : ¬isFinite newCost = true) : settings.Stays g s := by
  intro budget index cost
  rw [descend_eq_ok.2 (.unbounded step infinite)]
  rfl

/-- No move is too short for a tolerance that no length is below. -/
theorem Descends.ending_ne_settled (h : settings.Descends g budget index s cost out)
    (hlong : ∀ d : List α, ¬Elementary.norm d < settings.stepNorm) : out.ending ≠ .settled := by
  induction h with
  | exhausted | flat | unbounded => rintro ⟨⟩
  | settled _ _ hsettles =>
    rw [settles, Bool.and_eq_true, decide_eq_true_eq] at hsettles
    exact absurd hsettles.2 (hlong _)
  | onward _ _ _ _ ih => exact ih

/-- A descent that the test of the latest move did not end is taken up where it ended: what is
reached from there is what is reached with both budgets together. -/
theorem Descends.resume (h : settings.Descends g budget index s cost out)
    (hcost : g.cost s = .ok cost) (hfinite : isFinite cost = true) (hend : out.ending ≠ .settled) :
    ∃ reached, g.cost out.assignment = .ok reached ∧ isFinite reached = true ∧
      out.assignment.dimension = s.dimension ∧
      ∀ more,
        Outcome.assignment <$>
            settings.descend g (.fresh settings.linear) more 0 out.assignment reached =
          Outcome.assignment <$>
            settings.descend g (.fresh settings.linear) (budget + more) index s cost := by
  -- the cost behind the moves is the only number that they hand over
  induction h with
  | exhausted =>
    refine ⟨_, hcost, hfinite, rfl, fun more => ?_⟩
    rw [Nat.zero_add]
    exact descend_index ..
  | flat hmodel hgradient hsmall =>
    have hstays := stays_of_flat hmodel hgradient hsmall
    exact ⟨_, hcost, hfinite, rfl, fun more =>
      (hstays.descend ..).trans (hstays.descend ..).symm⟩
  | unbounded step hinfinite =>
    have hstays := step.stays hinfinite
    exact ⟨_, hcost, hfinite, rfl, fun more =>
      (hstays.descend ..).trans (hstays.descend ..).symm⟩
  | settled => exact absurd rfl hend
  | @onward budget index s cost _ _ _ moved newCost rest step hnewFinite hunsettled _ ih =>
    obtain ⟨reached, hreached, hreachedFinite, hdimension, hresume⟩ :=
      ih step.cost_eq hnewFinite hend
    refine ⟨reached, hreached, hreachedFinite,
      hdimension.trans (Assignment.dimension_eq_of_shape (Assignment.shape_move step.move_eq)),
      fun more => ?_⟩
    rw [hresume, Nat.succ_add, step.descend_succ hnewFinite hunsettled, map_bind,
      map_eq_pure_bind]
    rfl

/-- A descent that gives an outcome gives one with a smaller budget, too. -/
theorem Descends.exists_of_add {more : Nat}
    (h : settings.Descends g (budget + more) index s cost out) :
    ∃ out', settings.Descends g budget index s cost out' := by
  induction budget generalizing index s cost out with
  | zero => exact ⟨_, .exhausted⟩
  | succ budget ih =>
    rw [Nat.succ_add] at h
    cases h with
    | flat hmodel hgradient hsmall => exact ⟨_, .flat hmodel hgradient hsmall⟩
    | unbounded step hinfinite => exact ⟨_, .unbounded step hinfinite⟩
    | settled step hfinite hsettles => exact ⟨_, .settled step hfinite hsettles⟩
    | onward step hfinite hunsettled hrest =>
      obtain ⟨rest, hrest⟩ := ih hrest
      exact ⟨_, .onward step hfinite hunsettled hrest⟩

/-! ## Runs -/

/-- A run within a budget descends from a finite cost, where there is something to move. -/
theorem minimize_withBudget (hcost : g.cost s = .ok cost) (n : Nat) :
    (settings.withBudget n).minimize g s =
      if !isFinite cost then .ok ⟨s, .unboundedStart cost, []⟩
      else if s.dimension = 0 then .ok ⟨s, .nothingToMove, []⟩
      else settings.descend g (.fresh settings.linear) n 0 s cost := by
  rw [minimize, hcost, ← descend_withBudget n]
  rfl

/-- No run is ended by the test of the latest move if no length is below its tolerance. -/
theorem minimize_ending_ne_settled (h : settings.minimize g s = .ok out)
    (hlong : ∀ d : List α, ¬Elementary.norm d < settings.stepNorm) : out.ending ≠ .settled := by
  obtain ⟨cost, -, h⟩ := bind_eq_ok.1 h
  split at h
  · cases h
    rintro ⟨⟩
  · split at h
    · cases h
      rintro ⟨⟩
    · exact (descend_eq_ok.1 h).ending_ne_settled hlong

/-- A run that gives an outcome gives one within a smaller budget, too. -/
theorem exists_minimize_of_add {m n : Nat}
    (h : (settings.withBudget (m + n)).minimize g s = .ok out) :
    ∃ out', (settings.withBudget m).minimize g s = .ok out' := by
  obtain ⟨cost, hcost, -⟩ := bind_eq_ok.1 h
  rw [minimize_withBudget hcost] at h ⊢
  split
  · exact ⟨_, rfl⟩
  · rename_i hfinite
    split
    · exact ⟨_, rfl⟩
    · rename_i hdimension
      rw [if_neg hfinite, if_neg hdimension] at h
      obtain ⟨out', hdescends⟩ := (descend_eq_ok.1 h).exists_of_add
      exact ⟨out', descend_eq_ok.2 hdescends⟩

/-- What is reached with `n` moves from where a run of `m` moves ended, if the test of the latest
move did not end it, is what is reached with `m + n` moves, and it is refused where that is. -/
theorem minimize_add {m : Nat} (hrun : (settings.withBudget m).minimize g s = .ok out)
    (hend : out.ending ≠ .settled) (n : Nat) :
    Outcome.assignment <$> (settings.withBudget n).minimize g out.assignment =
      Outcome.assignment <$> (settings.withBudget (m + n)).minimize g s := by
  obtain ⟨cost, hcost, -⟩ := bind_eq_ok.1 hrun
  rw [minimize_withBudget hcost] at hrun
  split at hrun
  · -- a cost that is not finite ends every run at its start, and so does a point
    rename_i hinfinite
    cases hrun
    simp only [minimize_withBudget hcost, if_pos hinfinite]
  · rename_i hfinite
    split at hrun
    · rename_i hdimension
      cases hrun
      simp only [minimize_withBudget hcost, if_neg hfinite, if_pos hdimension]
    · rename_i hdimension
      have hfinite' : isFinite cost = true := by simpa using hfinite
      obtain ⟨reached, hreached, hreachedFinite, hdimension', hresume⟩ :=
        (descend_eq_ok.1 hrun).resume hcost hfinite' hend
      have hfinite'' : ¬(!isFinite reached) = true := by simpa using hreachedFinite
      rw [minimize_withBudget hreached, minimize_withBudget hcost, if_neg hfinite'',
        if_neg (hdimension' ▸ hdimension), if_neg hfinite, if_neg hdimension]
      exact hresume n

/-- A run can be taken up where a smaller budget ended it. Where a run of `m + n` moves refuses
nothing, so do a run of `m` moves and, unless the test of the latest move ended that, a new run of
`n` moves from what it reached, which reaches the same as the run of `m + n` moves. -/
theorem minimize_resume (m n : Nat) (h : (settings.withBudget (m + n)).Evaluates g s) :
    ∃ out last, (settings.withBudget m).minimize g s = .ok out ∧
      (settings.withBudget (m + n)).minimize g s = .ok last ∧
      (out.ending ≠ .settled →
        Outcome.assignment <$> (settings.withBudget n).minimize g out.assignment =
          .ok last.assignment) := by
  obtain ⟨last, hlast⟩ := exists_minimize_iff.2 h
  obtain ⟨out, hout⟩ := exists_minimize_of_add hlast
  refine ⟨out, last, hout, hlast, fun hend => ?_⟩
  rw [minimize_add hout hend, hlast]
  rfl

/-- A pinned point of a line and the displacement of another one, with two moves and with one and
another one, of one step each. -/
theorem minimize_resume_displacement :
    let s : Assignment ℝ := ⟨[(1, ⟨.line, [0], rfl⟩), (2, ⟨.line, [5], rfl⟩)]⟩
    let g : Graph ℝ :=
      .ofMeasurements [.prior "pin" 1 ⟨.line, [1], rfl⟩ 2, .between "step" 1 2 [1] 3]
    let settings : Settings ℝ := ⟨7, 1, 1, 0, 0, ⟨1 / 8, 1, false⟩, false⟩
    (settings.withBudget 2).Evaluates g s ∧ ∃ out last,
      (settings.withBudget 1).minimize g s = .ok out ∧ out.ending ≠ .settled ∧
      (settings.withBudget 2).minimize g s = .ok last ∧
      Outcome.assignment <$> (settings.withBudget 1).minimize g out.assignment =
        .ok last.assignment := by
  intro s g settings
  have hms : ∀ m ∈ ([.prior "pin" 1 ⟨.line, [1], rfl⟩ 2, .between "step" 1 2 [1] 3] :
      List (Measurement ℝ)), ∃ r, m.residual.value s = .ok r ∧ r.data ≠ [] := by
    intro m hm
    rcases List.mem_cons.1 hm with rfl | hm
    · exact ⟨_, rfl, List.cons_ne_nil _ _⟩
    · rw [List.mem_singleton.1 hm]
      exact ⟨_, rfl, List.cons_ne_nil _ _⟩
  have hv : s.IsVector := by simp [s, Assignment.IsVector, Kind.line, Kind.IsVector]
  have hevaluates : (settings.withBudget (1 + 1)).Evaluates g s :=
    Measurement.Evaluate.evaluates ⟨by decide, hv, hms⟩ _
  obtain ⟨out, last, hout, hlast, hresume⟩ := minimize_resume 1 1 hevaluates
  have hend : out.ending ≠ .settled :=
    minimize_ending_ne_settled hout fun d => not_lt.2 (LawfulNorm.norm_nonneg d)
  exact ⟨hevaluates, out, last, hout, hend, hlast, hresume hend⟩

end Settings

end LeastSquares.Minimizer
