import LeastSquares.LinearSolver
import LeastSquares.Proofs.Landings
import LeastSquares.Proofs.Stretching

/-!
# What a solver remembers

A solver counts the steps of a run while these are taken, so if a step were refused, the solver
would tell how far the run came. No step is. Whether a product is refused depends on the length of
the vector alone (`BlockMatrix.exists_apply_of_length`, `BlockMatrix.exists_adjoint_of_length`), and
a run begins with a product of each kind. So where it starts, both products exist for all vectors of
the axes (`LinearSystem.multiplies_of_start`), whatever the matrix is.

Hence the search with a solver is the recursion on the budget (`LinearSystem.run`), followed by what
the solver makes of its outcome: it remembers the steps and whether the run converged, or it is as
before its first run (`LinearSolver.solve_eq`).
-/

namespace LeastSquares

variable {α : Type}

/-! ## Lengths decide on products -/

/-- A checked fold goes through from related values if its steps do. -/
theorem exists_foldlM_of_rel {β γ π : Type} {R : β → γ → Prop} {step : β → π → Except Error β}
    {step' : γ → π → Except Error γ}
    (h : ∀ p b b₁ c, R b c → step b p = .ok b₁ → ∃ c₁, step' c p = .ok c₁ ∧ R b₁ c₁)
    {ps : List π} {b b' : β} {c : γ} (hR : R b c) (hfold : ps.foldlM step b = .ok b') :
    ∃ c', ps.foldlM step' c = .ok c' ∧ R b' c' := by
  induction ps generalizing b c with
  | nil =>
    cases hfold
    exact ⟨c, rfl, hR⟩
  | cons p ps ih =>
    obtain ⟨b₁, hstep, hfold⟩ := bind_eq_ok.1 hfold
    obtain ⟨c₁, hstep', hR'⟩ := h p b b₁ c hR hstep
    obtain ⟨c', hfold', hc'⟩ := ih hR' hfold
    exact ⟨c', bind_eq_ok.2 ⟨c₁, hstep', hfold'⟩, hc'⟩

/-- Values are stretched to as many places as there are values, and a single one to any number. -/
theorem exists_stretch {n : Nat} {values : List α} (h : values.length = n ∨ values.length = 1) :
    ∃ vs, stretch n values = .ok vs := by
  rcases h with hlen | hone
  · exact ⟨values, if_pos hlen⟩
  · obtain ⟨v, rfl⟩ := List.length_eq_one_iff.1 hone
    unfold stretch
    split <;> exact ⟨_, rfl⟩

/-- As many values are accumulated on a list of the same length. -/
theorem Span.exists_accumulate_of_length [Add α] {s : Span} {values values' xs xs' ys : List α}
    (hvalues : values'.length = values.length) (hxs : xs'.length = xs.length)
    (h : s.accumulate values xs = .ok ys) :
    ∃ ys', s.accumulate values' xs' = .ok ys' ∧ ys'.length = ys.length := by
  have hfits : values'.length = (s.slice xs').length ∨ values'.length = 1 := by
    rw [length_slice, hxs, hvalues]
    exact fits_of_accumulate h
  obtain ⟨vs, hvs⟩ := exists_stretch hfits
  have hok : ∃ ys', s.accumulate values' xs' = .ok ys' := by
    simp only [accumulate, update, hvs, bind, Except.bind]
    exact ⟨_, rfl⟩
  obtain ⟨ys', hys'⟩ := hok
  exact ⟨ys', hys', by rw [length_accumulate hys', length_accumulate h, hxs]⟩

/-- The length of a product with a transposed panel does not depend on the entries. -/
theorem Dense.length_vecMul_congr [Zero α] [Add α] [Mul α] (columns : Nat) {y y' : List α}
    (h : y'.length = y.length) (rows : List (List α)) :
    (vecMul columns y' rows).length = (vecMul columns y rows).length := by
  have hfold : ∀ (rows : List (List α)) {y y' acc acc' : List α}, y'.length = y.length →
      acc'.length = acc.length →
      ((List.zipWith smul y' rows).foldl add acc').length =
        ((List.zipWith smul y rows).foldl add acc).length := by
    intro rows
    induction rows with
    | nil => simp
    | cons row rows ih =>
      intro y y' acc acc' hy hacc
      cases y with
      | nil =>
        obtain rfl := List.eq_nil_of_length_eq_zero hy
        exact hacc
      | cons a y =>
        obtain ⟨a', y', rfl⟩ := List.exists_cons_of_length_eq_add_one hy
        exact ih (Nat.succ.inj hy) (by simp [add, smul, hacc])
  exact hfold rows h rfl

/-- A list as long as one that is an operand is an operand. -/
theorem Operand.resolve_of_length [Zero α] [Add α] {required : Int} {x x' xs : List α}
    (hx : x'.length = x.length) (h : (dense (.ofList x)).resolve required = .ok xs) :
    xs = x ∧ (dense (.ofList x')).resolve required = .ok x' := by
  simp only [resolve, Tensor.shape_ofList, Tensor.data_ofList, hx] at h ⊢
  split at h
  · cases h
  · cases h
    exact ⟨rfl, if_neg ‹_›⟩

namespace BlockMatrix

variable [Zero α] [Add α] [Mul α] {A : BlockMatrix α}

/-- A matrix that multiplies a vector multiplies every vector of its length. -/
theorem exists_apply_of_length {x x' y : List α} (hx : x'.length = x.length)
    (h : A.apply (.dense (.ofList x)) = .ok y) :
    ∃ y', A.apply (.dense (.ofList x')) = .ok y' ∧ y'.length = y.length := by
  obtain ⟨xs, hxs, h⟩ := bind_eq_ok.1 h
  obtain ⟨start, hstart, hfold⟩ := bind_eq_ok.1 h
  obtain ⟨rfl, hxs'⟩ := Operand.resolve_of_length hx hxs
  have hpanel : ∀ (panel : Tile × List (List α)) (acc acc₁ acc' : List α),
      acc'.length = acc.length → applyPanel xs acc panel = .ok acc₁ →
      ∃ acc₁', applyPanel x' acc' panel = .ok acc₁' ∧ acc₁'.length = acc₁.length := by
    intro panel acc acc₁ acc' hacc hstep
    simp only [applyPanel, Span.length_slice, hx] at hstep ⊢
    split at hstep
    · rw [if_pos ‹_›]
      refine Span.exists_accumulate_of_length ?_ hacc hstep
      rw [Dense.mulVec, Dense.mulVec, List.length_map, List.length_map]
    · cases hstep
  obtain ⟨y', hy', hlen⟩ := exists_foldlM_of_rel
    (R := fun acc acc' : List α => acc'.length = acc.length) hpanel rfl hfold
  exact ⟨y', bind_eq_ok.2 ⟨x', hxs', bind_eq_ok.2 ⟨start, hstart, hy'⟩⟩, hlen⟩

/-- So does its transpose. -/
theorem exists_adjoint_of_length {y y' x : List α} (hy : y'.length = y.length)
    (h : A.adjoint (.dense (.ofList y)) = .ok x) :
    ∃ x', A.adjoint (.dense (.ofList y')) = .ok x' ∧ x'.length = x.length := by
  obtain ⟨ys, hys, h⟩ := bind_eq_ok.1 h
  obtain ⟨start, hstart, hfold⟩ := bind_eq_ok.1 h
  obtain ⟨rfl, hys'⟩ := Operand.resolve_of_length hy hys
  have hpanel : ∀ (panel : Tile × List (List α)) (acc acc₁ acc' : List α),
      acc'.length = acc.length → adjointPanel ys acc panel = .ok acc₁ →
      ∃ acc₁', adjointPanel y' acc' panel = .ok acc₁' ∧ acc₁'.length = acc₁.length := by
    intro panel acc acc₁ acc' hacc hstep
    simp only [adjointPanel, Span.length_slice, hy] at hstep ⊢
    split at hstep
    · rw [if_pos ‹_›]
      refine Span.exists_accumulate_of_length (Dense.length_vecMul_congr _ ?_ _) hacc hstep
      rw [Span.length_slice, Span.length_slice, hy]
    · cases hstep
  obtain ⟨x', hx', hlen⟩ := exists_foldlM_of_rel
    (R := fun acc acc' : List α => acc'.length = acc.length) hpanel rfl hfold
  exact ⟨x', bind_eq_ok.2 ⟨y', hys', bind_eq_ok.2 ⟨start, hstart, hx'⟩⟩, hlen⟩

end BlockMatrix

/-! ## Axes -/

/-- Padding leads to the given length. -/
theorem Dense.length_pad [Zero α] {n : Nat} {xs ys : List α} (h : pad n xs = .ok ys) :
    ys.length = n := by
  rw [pad] at h
  split at h
  · cases h
  · cases h
    rw [List.length_append, List.length_replicate]
    omega

theorem Dense.length_le_of_pad [Zero α] {n : Nat} {xs ys : List α} (h : pad n xs = .ok ys) :
    xs.length ≤ n := by
  rw [pad] at h
  split at h
  · cases h
  · omega

/-- An operand that is a tensor is a list. -/
theorem Operand.eq_ofList_of_resolve [Zero α] [Add α] {required : Int} {t : Tensor α}
    {xs : List α} (h : (dense t).resolve required = .ok xs) : t = .ofList t.data := by
  simp only [resolve] at h
  split at h
  · rename_i n hshape
    exact (Tensor.ofList_data hshape).symm
  · cases h

theorem Tensor.leading_eq_ok {t : Tensor α} {n : Nat} :
    t.leading = .ok n ↔ ∃ rest, t.shape = n :: rest := by
  rw [leading]
  split <;> simp_all

/-- What is combined to a list has no axes but the first. -/
theorem Tensor.shape_of_combine {f : α → α → α} {s t : Tensor α} {zs : List α} {n : Nat}
    (hs : s.leading = .ok n) (h : s.combine f t = .ok (.ofList zs)) : s.shape = [n] := by
  obtain ⟨rest, hshape⟩ := leading_eq_ok.1 hs
  have haxes : (padShape 1 s.shape).length = 1 := (combine_spec h).1.length_eq
  rw [padShape, List.length_append, List.length_replicate, hshape, List.length_cons] at haxes
  obtain rfl := List.eq_nil_of_length_eq_zero (show rest.length = 0 by omega)
  exact hshape

namespace LinearSystem

variable {A : LinearSystem α}

/-- A state whose vectors are as long as the axes of the system. -/
structure Sized (A : LinearSystem α) (it : Iterate α) : Prop where
  x : it.x.length = A.columns
  r : it.r.length = A.rows
  s : it.s.length = A.columns
  p : it.p.length = A.columns

/-- A system in which both products exist for all vectors of the axes. -/
structure Multiplies [Zero α] [Add α] [Mul α] (A : LinearSystem α) : Prop where
  exists_forward {x : List α} (hx : x.length = A.columns) :
    ∃ y, A.forward (.dense (.ofList x)) = .ok y ∧ y.length = A.rows
  exists_adjoint {y : List α} (hy : y.length = A.rows) :
    ∃ x, A.adjoint (.dense (.ofList y)) = .ok x ∧ x.length = A.columns

section
variable [Zero α] [Add α] [Mul α]

/-- One product of either kind gives all. -/
theorem multiplies_of_products {x y x' y' : List α} (hx : x.length = A.columns)
    (hforward : A.forward (.dense (.ofList x)) = .ok y) (hy' : y'.length = A.rows)
    (hadjoint : A.adjoint (.dense (.ofList y')) = .ok x') : A.Multiplies where
  exists_forward {u} hu := by
    obtain ⟨product, happly, hpad⟩ := bind_eq_ok.1 hforward
    obtain ⟨product', happly', hlen⟩ := BlockMatrix.exists_apply_of_length (hu.trans hx.symm) happly
    have hle := Dense.length_le_of_pad hpad
    obtain ⟨v, hv, hlen'⟩ := Dense.exists_pad (hlen.trans_le hle)
    exact ⟨v, bind_eq_ok.2 ⟨product', happly', hv⟩, hlen'⟩
  exists_adjoint {u} hu := by
    obtain ⟨product, happly, hpad⟩ := bind_eq_ok.1 hadjoint
    obtain ⟨product', happly', hlen⟩ :=
      BlockMatrix.exists_adjoint_of_length (hu.trans hy'.symm) happly
    have hle := Dense.length_le_of_pad hpad
    obtain ⟨v, hv, hlen'⟩ := Dense.exists_pad (hlen.trans_le hle)
    exact ⟨v, bind_eq_ok.2 ⟨product', happly', hv⟩, hlen'⟩

variable [Sub α]

/-- Where a run starts, both products exist, and the first state has the lengths of the axes. -/
theorem multiplies_of_start {bias x : Tensor α} {first : Iterate α}
    (hrows : bias.leading = .ok A.rows) (hcolumns : x.leading = .ok A.columns)
    (h : A.start bias x = .ok first) : A.Multiplies ∧ A.Sized first := by
  obtain ⟨y, hforward, h⟩ := bind_eq_ok.1 h
  obtain ⟨r, hr, h⟩ := bind_eq_ok.1 h
  obtain ⟨s, hadjoint, h⟩ := bind_eq_ok.1 h
  cases h
  obtain ⟨product, happly, hpad⟩ := bind_eq_ok.1 hforward
  obtain ⟨product', happly', hpad'⟩ := bind_eq_ok.1 hadjoint
  -- an operand has one axis, and so has what the residual is combined of
  obtain ⟨_, hoperand, -⟩ := bind_eq_ok.1 happly
  obtain ⟨_, hoperand', -⟩ := bind_eq_ok.1 happly'
  have hx := Operand.eq_ofList_of_resolve hoperand
  have hr' := Operand.eq_ofList_of_resolve hoperand'
  rw [hx] at hforward hcolumns
  rw [hr'] at hadjoint hr
  have hxlen : x.data.length = A.columns := Except.ok.inj hcolumns
  have hbias := Tensor.shape_of_combine hrows hr
  have hshape : bias.shape = (Tensor.ofList y).shape := by
    rw [hbias, Tensor.shape_ofList, Dense.length_pad hpad]
  have hrlen : r.data.length = A.rows := by
    rw [Tensor.combine_of_shape_eq _ hshape, Except.ok.injEq] at hr
    rw [← Tensor.data_ofList r.data, ← hr]
    exact Tensor.length_data_of_shape hbias
  have hslen := Dense.length_pad hpad'
  exact ⟨multiplies_of_products hxlen hforward hrlen hadjoint, hxlen, hrlen, hslen, hslen⟩

variable [Div α]

/-- A step is taken from every state, and keeps the lengths. -/
theorem Multiplies.exists_advance (h : A.Multiplies) {it : Iterate α} (hit : A.Sized it)
    {q : List α} (hq : q.length = A.rows) :
    ∃ step, A.advance it q = .ok step ∧ A.Sized step.iterate := by
  have hr : (Dense.sub it.r (Dense.smul (it.gamma / Dense.normSq q) q)).length = A.rows := by
    simp [Dense.sub, Dense.smul, hit.r, hq]
  obtain ⟨s, hs, hlen⟩ := h.exists_adjoint hr
  refine ⟨_, bind_eq_ok.2 ⟨s, hs, rfl⟩, ?_, hr, hlen, ?_⟩
  · simp [Dense.add, Dense.smul, hit.x, hit.p]
  · simp [Dense.add, Dense.smul, hlen, hit.p]

/-! ## The recursion on the budget -/

variable [BEq α]

/-- Steps one after the other, none of which divides by zero: a step divides by the squared length
of the product with its direction and by that of the normal residual before it. -/
inductive Divides (A : LinearSystem α) : Iterate α → List (SearchStep α) → Prop
  | done {it} : Divides A it []
  | step {it q step rest} (forward_eq : A.forward (.dense (.ofList it.p)) = .ok q)
      (advance_eq : A.advance it q = .ok step) (gamma_ne : ¬(it.gamma == 0) = true)
      (product_ne : ¬(Dense.normSq q == 0) = true) (divides : Divides A step.iterate rest) :
      Divides A it (step :: rest)

variable [LT α] [DecidableLT α]

/-- Takes up to `budget` steps, and stops at movements below the precision. -/
def run (A : LinearSystem α) (precision : α) : Nat → Iterate α → Except Error (Solution α)
  | 0, it => .ok ⟨it, .exhausted, []⟩
  | budget + 1, it => do
    let q ← A.forward (.dense (.ofList it.p))
    if Dense.normSq q == 0 then .ok ⟨it, .nullDirection, []⟩
    else
      let step ← A.advance it q
      if step.movement < precision then .ok ⟨step.iterate, .smallMovement, [step]⟩
      else if step.iterate.gamma == 0 then .ok ⟨step.iterate, .vanished, [step]⟩
      else
        let rest ← A.run precision budget step.iterate
        .ok ⟨rest.last, rest.ending, step :: rest.trace⟩

/-- A run from a normal residual that is not zero is not refused and divides by nothing that is. -/
theorem Multiplies.exists_run (h : A.Multiplies) (precision : α) (budget : Nat) {it : Iterate α}
    (hit : A.Sized it) (hgamma : ¬(it.gamma == 0) = true) :
    ∃ out, A.run precision budget it = .ok out ∧ A.Sized out.last ∧ A.Divides it out.trace := by
  induction budget generalizing it with
  | zero => exact ⟨_, rfl, hit, .done⟩
  | succ budget ih =>
    obtain ⟨q, hq, hlen⟩ := h.exists_forward hit.p
    obtain ⟨step, hstep, hsized⟩ := h.exists_advance hit hlen
    simp only [run, hq, hstep, bind, Except.bind]
    split
    · exact ⟨_, rfl, hit, .done⟩
    · rename_i hproduct
      have hone : A.Divides it [step] := .step hq hstep hgamma hproduct .done
      split
      · exact ⟨_, rfl, hsized, hone⟩
      · split
        · exact ⟨_, rfl, hsized, hone⟩
        · rename_i hnext
          obtain ⟨out, hout, hlast, hdivides⟩ := ih hsized hnext
          rw [hout]
          exact ⟨_, rfl, hlast, .step hq hstep hgamma hproduct hdivides⟩

omit [BEq α] [LT α] [DecidableLT α] in
/-- A step counts itself. -/
theorem steps_advance {it : Iterate α} {q : List α} {step : SearchStep α}
    (h : A.advance it q = .ok step) : step.iterate.steps = it.steps + 1 := by
  obtain ⟨s, -, h⟩ := bind_eq_ok.1 h
  cases h
  rfl

/-- The last state counts the steps of the run. -/
theorem steps_run {precision : α} {budget : Nat} {it : Iterate α} {out : Solution α}
    (h : A.run precision budget it = .ok out) : out.last.steps = it.steps + out.trace.length := by
  induction budget generalizing it out with
  | zero =>
    cases h
    rfl
  | succ budget ih =>
    obtain ⟨q, -, h⟩ := bind_eq_ok.1 h
    split at h
    · cases h
      rfl
    · obtain ⟨step, hstep, h⟩ := bind_eq_ok.1 h
      have hsteps := steps_advance hstep
      split at h
      · cases h
        exact hsteps
      · split at h
        · cases h
          exact hsteps
        · obtain ⟨rest, hrest, h⟩ := bind_eq_ok.1 h
          cases h
          rw [ih hrest, hsteps, List.length_cons]
          omega

end

end LinearSystem

/-! ## Runs of a solver -/

variable [Zero α] [Add α] [Sub α] [Mul α] [Div α] [LT α] [DecidableLT α] [BEq α]

namespace LinearSolver

variable {A : LinearSystem α} {solver : LinearSolver α} {it : Iterate α} {budget : Nat}

/-- The solver behind a search counts the steps of the solution, and has converged if it had or if
the search does. -/
theorem search_eq_ok {out : Solution α} (h : A.run solver.settings.precision budget it = .ok out) :
    search A budget it solver = (.ok out, ⟨solver.settings, solver.steps + out.trace.length,
      solver.converged || out.ending.converged⟩) := by
  induction budget generalizing it solver out with
  | zero =>
    cases h
    simp [search, Ending.converged]
  | succ budget ih =>
    obtain ⟨q, hq, h⟩ := bind_eq_ok.1 h
    rw [search, hq]
    dsimp only
    split at h
    · rename_i hproduct
      cases h
      rw [if_pos hproduct]
      simp [converge, Ending.converged]
    · rename_i hproduct
      obtain ⟨step, hstep, h⟩ := bind_eq_ok.1 h
      rw [if_neg hproduct, hstep]
      dsimp only
      split at h
      · rename_i hsmall
        cases h
        rw [if_pos (show step.movement < solver.count.settings.precision from hsmall)]
        simp [count, converge, Ending.converged]
      · rename_i hlarge
        rw [if_neg (show ¬step.movement < solver.count.settings.precision from hlarge)]
        split at h
        · rename_i hgamma
          cases h
          rw [if_pos hgamma]
          simp [count, converge, Ending.converged]
        · rename_i hgamma
          obtain ⟨rest, hrest, h⟩ := bind_eq_ok.1 h
          cases h
          have hrest : A.run solver.count.settings.precision budget step.iterate = .ok rest :=
            hrest
          rw [if_neg hgamma, ih hrest, List.length_cons, ← Nat.add_assoc, Nat.add_right_comm]
          rfl

end LinearSolver

namespace LinearSystem

omit [Div α] [LT α] [DecidableLT α] [BEq α]

/-- A run starts without steps. -/
theorem steps_start {A : LinearSystem α} {bias x : Tensor α} {first : Iterate α}
    (h : A.start bias x = .ok first) : first.steps = 0 := by
  obtain ⟨_, -, h⟩ := bind_eq_ok.1 h
  obtain ⟨_, -, h⟩ := bind_eq_ok.1 h
  obtain ⟨_, -, h⟩ := bind_eq_ok.1 h
  cases h
  rfl

/-- A system that is posed multiplies the vectors of its axes. -/
theorem of_pose {A : BlockMatrix α} {b : Operand α} {x : Tensor α} {system : LinearSystem α}
    {first : Iterate α} (h : pose A b x = .ok (system, first)) :
    system.Multiplies ∧ system.Sized first ∧ first.steps = 0 := by
  obtain ⟨bias, -, h⟩ := bind_eq_ok.1 h
  obtain ⟨rows, hrows, h⟩ := bind_eq_ok.1 h
  obtain ⟨columns, hcolumns, h⟩ := bind_eq_ok.1 h
  obtain ⟨first, hfirst, h⟩ := bind_eq_ok.1 h
  cases h
  obtain ⟨hmultiplies, hsized⟩ :=
    multiplies_of_start (A := ⟨A, rows, columns⟩) hrows hcolumns hfirst
  exact ⟨hmultiplies, hsized, steps_start hfirst⟩

end LinearSystem

namespace LinearSolver

variable {A : BlockMatrix α} {b : Operand α} {x : Tensor α} (solver : LinearSolver α)

omit [Zero α] [Add α] [Sub α] [Mul α] [Div α] [LT α] [DecidableLT α] [BEq α] in
theorem reset_eq : solver.reset = .fresh solver.settings := rfl

theorem run_reset : solver.reset.run A b x = solver.solve A b x := rfl

/-- What a solver finds does not depend on the runs before. -/
theorem fst_solve : (solver.solve A b x).1 = solver.settings.solve A b x := rfl

/-- A solver that is not posed a system is as before its first run. -/
theorem solve_of_pose_error {e : Error} (h : LinearSystem.pose A b x = .error e) :
    solver.solve A b x = (.error e, .fresh solver.settings) := by
  rw [solve, run, h]
  rfl

/-- A solver that is posed a system solves it, and remembers how. -/
theorem solve_of_pose {system : LinearSystem α} {first : Iterate α}
    (h : LinearSystem.pose A b x = .ok (system, first)) :
    ∃ out, (if first.gamma == 0 then .ok ⟨first, .stationary, []⟩
        else system.run solver.settings.precision solver.settings.maxIterations.toNat first) =
          .ok out ∧
      solver.solve A b x = (.ok out, ⟨solver.settings, out.last.steps, out.ending.converged⟩) := by
  obtain ⟨hmultiplies, hsized, hsteps⟩ := LinearSystem.of_pose h
  rw [solve, run, h]
  dsimp only
  split
  · refine ⟨_, rfl, ?_⟩
    rw [hsteps]
    rfl
  · rename_i hgamma
    obtain ⟨out, hout, -⟩ := hmultiplies.exists_run solver.settings.precision
      solver.settings.maxIterations.toNat hsized hgamma
    have hbudget : (solver.settings.maxIterations - solver.reset.steps).toNat =
        solver.settings.maxIterations.toNat := congrArg Int.toNat (Int.sub_zero _)
    refine ⟨out, hout, ?_⟩
    rw [LinearSystem.steps_run hout, hsteps]
    exact (search_eq_ok (hbudget ▸ hout)).trans (by simp [reset])

end LinearSolver

/-- The run of a new solver, without the solver. -/
theorem LinearSettings.solve_eq_bind (settings : LinearSettings α) (A : BlockMatrix α)
    (b : Operand α) (x : Tensor α) :
    settings.solve A b x = (do
      let bias ← b.rightHandSide A.rows
      let rows ← bias.leading
      let columns ← x.leading
      let system : LinearSystem α := ⟨A, rows, columns⟩
      let first ← system.start bias x
      if first.gamma == 0 then .ok ⟨first, .stationary, []⟩
      else system.run settings.precision settings.maxIterations.toNat first) := by
  trans LinearSystem.pose A b x >>= fun posed =>
    if posed.2.gamma == 0 then .ok ⟨posed.2, .stationary, []⟩
    else posed.1.run settings.precision settings.maxIterations.toNat posed.2
  · cases hpose : LinearSystem.pose A b x with
    | error e => exact congrArg Prod.fst ((LinearSolver.fresh settings).solve_of_pose_error hpose)
    | ok posed =>
      obtain ⟨out, hout, hsolve⟩ := (LinearSolver.fresh settings).solve_of_pose hpose
      exact (congrArg Prod.fst hsolve).trans hout.symm
  · simp only [LinearSystem.pose, bind_assoc]
    rfl

/-- A solver remembers the steps of its latest run and whether it converged. A solver that refused
to run is as before its first run: no step was taken. -/
theorem LinearSolver.solve_eq (solver : LinearSolver α) (A : BlockMatrix α) (b : Operand α)
    (x : Tensor α) :
    solver.solve A b x =
      match solver.settings.solve A b x with
      | .ok out => (.ok out, ⟨solver.settings, out.last.steps, out.ending.converged⟩)
      | .error e => (.error e, .fresh solver.settings) := by
  cases hpose : LinearSystem.pose A b x with
  | error e => 
    have hfresh : solver.settings.solve A b x = .error e :=
      congrArg Prod.fst ((fresh solver.settings).solve_of_pose_error hpose)
    rw [hfresh, solver.solve_of_pose_error hpose]
  | ok posed =>
    obtain ⟨out, hout, hsolve⟩ := solver.solve_of_pose hpose
    obtain ⟨out', hout', hsolve'⟩ := (fresh solver.settings).solve_of_pose hpose
    cases hout.symm.trans hout'
    have hfresh : solver.settings.solve A b x = .ok out := congrArg Prod.fst hsolve'
    rw [hfresh, hsolve]

/-- A solver keeps its settings. -/
theorem LinearSolver.settings_solve (solver : LinearSolver α) (A : BlockMatrix α) (b : Operand α)
    (x : Tensor α) : (solver.solve A b x).2.settings = solver.settings := by
  rw [solve_eq]
  split <;> rfl

end LeastSquares
