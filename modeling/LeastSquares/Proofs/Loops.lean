import LeastSquares.Proofs.Records

/-!
# The loop of the linear solver

A run of the solver is a loop. At its head it compares the number of steps that the state counts
with the budget, and a step ends it early where the direction is taken to zero, where the movement
is small or where the normal residual vanishes. The relation `LinearSystem.Loops` has a rule for
each of these ways, and keeps the states that were at the head. It holds exactly of the runs that
the recursion on the budget computes (`LinearSystem.run_eq_ok`), and with the start of a run
(`LinearSettings.Runs`) exactly of the runs of the solver (`LinearSettings.solve_eq_ok`).

No law of arithmetic is used. So in floating point as well no run counts more steps than its budget
(`LinearSettings.Runs.steps_le`), and one that did not converge has used the budget up without a
reason to end before (`LinearSettings.Runs.exhausted`).
-/

namespace LeastSquares

variable {α : Type} [Zero α] [Add α] [Sub α] [Mul α]

/-! ## Loops -/

namespace LinearSystem

section
variable [Div α] [LT α] [BEq α]

/-- A step from a state, along a direction whose product with the matrix is not zero. -/
structure Takes (A : LinearSystem α) (it : Iterate α) (q : List α) (step : SearchStep α) :
    Prop where
  forward_eq : A.forward (.dense (.ofList it.p)) = .ok q
  product_ne : ¬(Dense.normSq q == 0) = true
  advance_eq : A.advance it q = .ok step

/-- The loop from a state at its head to its end, with the states at its head on the way. -/
inductive Loops (A : LinearSystem α) (settings : LinearSettings α) :
    Iterate α → List (Iterate α) → Solution α → Prop
  | exhausted {it} (spent : settings.maxIterations ≤ it.steps) :
      Loops A settings it [it] ⟨it, .exhausted, []⟩
  | nullDirection {it q} (room : it.steps < settings.maxIterations)
      (forward_eq : A.forward (.dense (.ofList it.p)) = .ok q)
      (product_eq : (Dense.normSq q == 0) = true) :
      Loops A settings it [it] ⟨it, .nullDirection, []⟩
  | smallMovement {it q step} (room : it.steps < settings.maxIterations)
      (takes : A.Takes it q step) (small : step.movement < settings.precision) :
      Loops A settings it [it] ⟨step.iterate, .smallMovement, [step]⟩
  | vanished {it q step} (room : it.steps < settings.maxIterations) (takes : A.Takes it q step)
      (large : ¬step.movement < settings.precision)
      (gamma_eq : (step.iterate.gamma == 0) = true) :
      Loops A settings it [it] ⟨step.iterate, .vanished, [step]⟩
  | onward {it q step heads out} (room : it.steps < settings.maxIterations)
      (takes : A.Takes it q step) (large : ¬step.movement < settings.precision)
      (gamma_ne : ¬(step.iterate.gamma == 0) = true)
      (loops : Loops A settings step.iterate heads out) :
      Loops A settings it (it :: heads) ⟨out.last, out.ending, step :: out.trace⟩

variable {A : LinearSystem α} {settings : LinearSettings α} {it : Iterate α} {q : List α}
  {step : SearchStep α} {heads : List (Iterate α)} {out : Solution α}

namespace Loops

/-- The loop counts no more steps than the budget allows, unless the state that it began from did.
-/
theorem steps_le (h : A.Loops settings it heads out) :
    (out.last.steps : Int) ≤ max (it.steps : Int) settings.maxIterations := by
  induction h with
  | exhausted | nullDirection => exact le_max_left _ _
  | smallMovement hroom htakes | vanished hroom htakes =>
    have hsteps := steps_advance htakes.advance_eq
    dsimp only
    omega
  | onward hroom htakes _ _ _ ih =>
    have hsteps := steps_advance htakes.advance_eq
    dsimp only
    omega

/-- What holds of the state that the loop begins from, and of every state behind a step that goes on
if it holds before the step, holds whenever the loop is at its head. -/
theorem forall_heads {P : Iterate α → Prop} (h : A.Loops settings it heads out) (hit : P it)
    (hstep : ∀ {it q step}, P it → A.Takes it q step → ¬(step.iterate.gamma == 0) = true →
      P step.iterate) : ∀ head ∈ heads, P head := by
  induction h with
  | exhausted | nullDirection | smallMovement | vanished => exact List.forall_mem_singleton.2 hit
  | onward _ htakes _ hgamma _ ih =>
    exact List.forall_mem_cons.2 ⟨hit, ih (hstep hit htakes hgamma)⟩

/-- The loop ends at its head, or with a step from there. -/
theorem exists_head (h : A.Loops settings it heads out) :
    ∃ head ∈ heads,
      (out.ending = .exhausted ∧ out.last = head) ∨
      (out.ending = .nullDirection ∧ out.last = head ∧
        ∃ q, A.forward (.dense (.ofList head.p)) = .ok q ∧ (Dense.normSq q == 0) = true) ∨
      ∃ q step, A.Takes head q step ∧ out.last = step.iterate ∧
        (out.ending = .smallMovement ∨
          out.ending = .vanished ∧ (step.iterate.gamma == 0) = true) := by
  induction h with
  | exhausted => exact ⟨_, List.mem_singleton_self _, .inl ⟨rfl, rfl⟩⟩
  | nullDirection _ hforward hproduct =>
    exact ⟨_, List.mem_singleton_self _, .inr (.inl ⟨rfl, rfl, _, hforward, hproduct⟩)⟩
  | smallMovement _ htakes =>
    exact ⟨_, List.mem_singleton_self _, .inr (.inr ⟨_, _, htakes, rfl, .inl rfl⟩)⟩
  | vanished _ htakes _ hgamma =>
    exact ⟨_, List.mem_singleton_self _, .inr (.inr ⟨_, _, htakes, rfl, .inr ⟨rfl, hgamma⟩⟩)⟩
  | onward _ _ _ _ _ ih =>
    obtain ⟨head, hmem, hend⟩ := ih
    exact ⟨head, List.mem_cons_of_mem _ hmem, hend⟩

/-- Only a run that does not loop is stationary. -/
theorem ending_ne_stationary (h : A.Loops settings it heads out) : out.ending ≠ .stationary := by
  induction h with
  | exhausted | nullDirection | smallMovement | vanished => nofun
  | onward _ _ _ _ _ ih => exact ih

/-- A loop whose budget ends it had no other reason to end: neither in the last state, if it did not
begin from one that has it, nor in the last step. -/
theorem of_exhausted (h : A.Loops settings it heads out) (hend : out.ending = .exhausted)
    (hgamma : ¬(it.gamma == 0) = true) :
    settings.maxIterations ≤ out.last.steps ∧ ¬(out.last.gamma == 0) = true ∧
      ∀ step ∈ out.trace.getLast?, ¬step.movement < settings.precision := by
  induction h with
  | exhausted hspent => exact ⟨hspent, hgamma, nofun⟩
  | nullDirection | smallMovement | vanished => cases hend
  | @onward it q step heads out _ _ hlarge hne _ ih =>
    obtain ⟨hspent, hlast, hsteps⟩ := ih hend hne
    refine ⟨hspent, hlast, fun last hmem => ?_⟩
    rw [List.getLast?_cons, Option.mem_some_iff] at hmem
    subst hmem
    cases hrest : out.trace.getLast? with
    | none => exact hlarge
    | some last => exact hsteps last hrest

end Loops

variable [DecidableLT α]

/-- The recursion on what is left of the budget takes the ways of the loop. -/
theorem loops_of_run {budget : Nat}
    (hbudget : budget = (settings.maxIterations - it.steps).toNat)
    (h : A.run settings.precision budget it = .ok out) :
    ∃ heads, A.Loops settings it heads out := by
  induction budget generalizing it out with
  | zero =>
    cases h
    exact ⟨[it], .exhausted (by omega)⟩
  | succ budget ih =>
    have hroom : it.steps < settings.maxIterations := by omega
    obtain ⟨q, hforward, h⟩ := bind_eq_ok.1 h
    split at h
    · rename_i hproduct
      cases h
      exact ⟨[it], .nullDirection hroom hforward hproduct⟩
    · rename_i hproduct
      obtain ⟨step, hadvance, h⟩ := bind_eq_ok.1 h
      have htakes : A.Takes it q step := ⟨hforward, hproduct, hadvance⟩
      split at h
      · rename_i hsmall
        cases h
        exact ⟨[it], .smallMovement hroom htakes hsmall⟩
      · rename_i hlarge
        split at h
        · rename_i hgamma
          cases h
          exact ⟨[it], .vanished hroom htakes hlarge hgamma⟩
        · rename_i hgamma
          obtain ⟨rest, hrest, h⟩ := bind_eq_ok.1 h
          cases h
          have hsteps := steps_advance hadvance
          obtain ⟨heads, hheads⟩ := ih (by omega) hrest
          exact ⟨it :: heads, .onward hroom htakes hlarge hgamma hheads⟩

/-- The ways of the loop are those that the recursion on what is left of the budget takes. -/
theorem Loops.run_eq (h : A.Loops settings it heads out) :
    A.run settings.precision (settings.maxIterations - it.steps).toNat it = .ok out := by
  -- where there is room for a step, the budget is one more than behind the step
  have hbudget : ∀ {it : Iterate α}, it.steps < settings.maxIterations →
      (settings.maxIterations - it.steps).toNat =
        (settings.maxIterations - (it.steps + 1 : Nat)).toNat + 1 := by
    intro it hroom
    omega
  induction h with
  | exhausted hspent =>
    rw [Int.toNat_of_nonpos (by omega)]
    rfl
  | nullDirection hroom hforward hproduct =>
    rw [hbudget hroom]
    simp only [run, hforward, if_pos hproduct, bind, Except.bind]
  | smallMovement hroom htakes hsmall =>
    rw [hbudget hroom]
    simp only [run, htakes.forward_eq, if_neg htakes.product_ne, htakes.advance_eq, if_pos hsmall,
      bind, Except.bind]
  | vanished hroom htakes hlarge hgamma =>
    rw [hbudget hroom]
    simp only [run, htakes.forward_eq, if_neg htakes.product_ne, htakes.advance_eq, if_neg hlarge,
      if_pos hgamma, bind, Except.bind]
  | onward hroom htakes hlarge hgamma _ ih =>
    rw [steps_advance htakes.advance_eq] at ih
    rw [hbudget hroom]
    simp only [run, htakes.forward_eq, if_neg htakes.product_ne, htakes.advance_eq, if_neg hlarge,
      if_neg hgamma, ih, bind, Except.bind]

/-- The relation holds exactly of the runs that give a solution. -/
theorem run_eq_ok :
    A.run settings.precision (settings.maxIterations - it.steps).toNat it = .ok out ↔
      ∃ heads, A.Loops settings it heads out :=
  ⟨loops_of_run rfl, fun ⟨_, h⟩ => h.run_eq⟩

end

end LinearSystem

/-! ## Whole runs -/

namespace LinearSettings

variable [Div α] [LT α] [BEq α]

/-- A run of the solver, from its start to its end, with the states at the head of its loop. -/
inductive Runs (settings : LinearSettings α) (A : BlockMatrix α) (b : Operand α) (x : Tensor α) :
    List (Iterate α) → Solution α → Prop
  | stationary {bias rows columns first} (bias_eq : b.rightHandSide A.rows = .ok bias)
      (rows_eq : bias.leading = .ok rows) (columns_eq : x.leading = .ok columns)
      (start_eq : (⟨A, rows, columns⟩ : LinearSystem α).start bias x = .ok first)
      (gamma_eq : (first.gamma == 0) = true) : Runs settings A b x [] ⟨first, .stationary, []⟩
  | loop {bias rows columns first heads out} (bias_eq : b.rightHandSide A.rows = .ok bias)
      (rows_eq : bias.leading = .ok rows) (columns_eq : x.leading = .ok columns)
      (start_eq : (⟨A, rows, columns⟩ : LinearSystem α).start bias x = .ok first)
      (gamma_ne : ¬(first.gamma == 0) = true)
      (loops : (⟨A, rows, columns⟩ : LinearSystem α).Loops settings first heads out) :
      Runs settings A b x heads out

variable {settings : LinearSettings α} {A : BlockMatrix α} {b : Operand α} {x : Tensor α}
  {heads : List (Iterate α)} {out : Solution α}

namespace Runs

/-- A run on lists is at its end where it starts, or loops from there. -/
theorem of_ofList {f x : List α} (h : settings.Runs A b (.ofList x) heads out)
    (hb : b.rightHandSide A.rows = .ok (.ofList f)) :
    ∃ first, (⟨A, f.length, x.length⟩ : LinearSystem α).start (.ofList f) (.ofList x) =
        .ok first ∧
      ((first.gamma == 0) = true ∧ heads = [] ∧ out = ⟨first, .stationary, []⟩ ∨
        ¬(first.gamma == 0) = true ∧
          (⟨A, f.length, x.length⟩ : LinearSystem α).Loops settings first heads out) := by
  cases h with
  | stationary hbias hrows hcolumns hfirst hgamma =>
    cases hb.symm.trans hbias
    cases hrows
    cases hcolumns
    exact ⟨_, hfirst, .inl ⟨hgamma, rfl, rfl⟩⟩
  | loop hbias hrows hcolumns hfirst hgamma hloops =>
    cases hb.symm.trans hbias
    cases hrows
    cases hcolumns
    exact ⟨_, hfirst, .inr ⟨hgamma, hloops⟩⟩

/-- No run counts more steps than its budget. -/
theorem steps_le (h : settings.Runs A b x heads out) :
    (out.last.steps : Int) ≤ max 0 settings.maxIterations := by
  cases h with
  | stationary _ _ _ hfirst =>
    rw [LinearSystem.steps_start hfirst]
    exact le_max_left _ _
  | loop _ _ _ hfirst _ hloops =>
    have hle := hloops.steps_le
    rwa [LinearSystem.steps_start hfirst] at hle

/-- A run that did not converge has used its budget up, and had no reason to end before. -/
theorem exhausted (h : settings.Runs A b x heads out) (hend : out.ending.converged = false) :
    (out.last.steps : Int) = max 0 settings.maxIterations ∧ ¬(out.last.gamma == 0) = true ∧
      ∀ step ∈ out.trace.getLast?, ¬step.movement < settings.precision := by
  have hle := h.steps_le
  have hexhausted : out.ending = .exhausted := by
    cases hout : out.ending with
    | exhausted => rfl
    | _ =>
      rw [hout] at hend
      cases hend
  cases h with
  | stationary => cases hend
  | loop _ _ _ _ hgamma hloops =>
    obtain ⟨hspent, hreasons⟩ := hloops.of_exhausted hexhausted hgamma
    exact ⟨by omega, hreasons⟩

end Runs

/-- The relation holds exactly of the runs that give a solution. -/
theorem solve_eq_ok [DecidableLT α] :
    settings.solve A b x = .ok out ↔ ∃ heads, settings.Runs A b x heads out := by
  -- at the start the whole budget is left
  have hbudget : ∀ {A : LinearSystem α} {bias first}, A.start bias x = .ok first →
      (settings.maxIterations - first.steps).toNat = settings.maxIterations.toNat := by
    intro A bias first hfirst
    rw [LinearSystem.steps_start hfirst, Nat.cast_zero, sub_zero]
  constructor
  · intro h
    rw [solve_eq_bind] at h
    obtain ⟨bias, hbias, h⟩ := bind_eq_ok.1 h
    obtain ⟨rows, hrows, h⟩ := bind_eq_ok.1 h
    obtain ⟨columns, hcolumns, h⟩ := bind_eq_ok.1 h
    obtain ⟨first, hfirst, h⟩ := bind_eq_ok.1 h
    split at h
    · rename_i hgamma
      cases h
      exact ⟨[], .stationary hbias hrows hcolumns hfirst hgamma⟩
    · rename_i hgamma
      rw [← hbudget hfirst] at h
      obtain ⟨heads, hloops⟩ := LinearSystem.run_eq_ok.1 h
      exact ⟨heads, .loop hbias hrows hcolumns hfirst hgamma hloops⟩
  · rintro ⟨heads, h⟩
    cases h with
    | stationary hbias hrows hcolumns hfirst hgamma =>
      simp only [solve_eq_bind, hbias, hrows, hcolumns, hfirst, if_pos hgamma, bind, Except.bind]
    | loop hbias hrows hcolumns hfirst hgamma hloops =>
      have hrun := LinearSystem.run_eq_ok.2 ⟨heads, hloops⟩
      rw [hbudget hfirst] at hrun
      simp only [solve_eq_bind, hbias, hrows, hcolumns, hfirst, if_neg hgamma, hrun, bind,
        Except.bind]

end LinearSettings

end LeastSquares
