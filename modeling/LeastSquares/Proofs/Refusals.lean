import LeastSquares.Proofs.Gaps
import LeastSquares.Proofs.Sizes
import LeastSquares.Proofs.StoreCommands

/-!
# Refused runs of the linear solver

A run multiplies once with the unknown before its first step, and every later vector has the length
of one that it started with. So a system is refused at its start or not at all, and only where the
matrix has gaps or reaches further than the unknown or a list on the right (`BlockMatrix.Exceeds`,
`LinearSettings.solve_outcome`). No law of arithmetic is used, so this holds of floating-point
numbers with all their special values.

A command on a workspace resets its solver, runs it, and then writes the unknown in place
(`Session.exec_solve`). The main statement, `Session.solve_atomic`: a refused command leaves a
solver without steps behind, and the unknown as it was.
-/

namespace LeastSquares

variable {α : Type}

/-! ## Starts -/

/-- A right-hand side on one axis: a list, or a block vector of non-negative bounds. -/
inductive Operand.OnAxis : Operand α → Prop
  | list (f : List α) : OnAxis (.dense (.ofList f))
  | blocks {v : BlockVector α} (hv : v.Regular) : OnAxis (.sparse v)

/-- Whether a matrix reaches further than the unknown or a list on the right. -/
def BlockMatrix.Exceeds (A : BlockMatrix α) (b : Operand α) (x : List α) : Prop :=
  (x.length : Int) < A.columns ∨ ∃ f, b = .dense (.ofList f) ∧ (f.length : Int) < A.rows

section
variable [Zero α] [Add α]

/-- A right-hand side is a list, which is shorter than the matrix only if it was given. -/
theorem Operand.OnAxis.exists_rightHandSide {b : Operand α} (hb : b.OnAxis) (rows : Int) :
    ∃ f : List α, b.rightHandSide rows = .ok (.ofList f) ∧
      ((∃ g, b = .dense (.ofList g) ∧ (g.length : Int) < rows) ↔ (f.length : Int) < rows) := by
  cases hb with
  | list f =>
    refine ⟨f, rfl, ?_, fun hlt => ⟨f, rfl, hlt⟩⟩
    rintro ⟨g, hg, hlt⟩
    have hfg : f = g := congrArg Tensor.data (Operand.dense.inj hg)
    rwa [hfg]
  | @blocks v hv =>
    obtain ⟨f, hf, hlen⟩ := hv.exists_dense (le_max_right rows v.dimension)
    refine ⟨f, ?_, ?_, fun hlt => ?_⟩
    · rw [rightHandSide, hf]
      rfl
    · rintro ⟨g, hg, -⟩
      cases hg
    · have := le_max_left rows v.dimension
      omega

variable [Sub α] [Mul α]

namespace LinearSystem

variable {A : LinearSystem α}

/-- An unknown that is too short is refused before the first step. -/
theorem start_short_unknown (bias : Tensor α) {x : List α}
    (hx : (x.length : Int) < A.matrix.columns) :
    A.start bias (.ofList x) = .error (.operand A.matrix.columns [x.length]) := by
  have hresolve : (Operand.dense (.ofList x)).resolve A.matrix.columns =
      .error (.operand A.matrix.columns [x.length]) := by
    simp [Operand.resolve, hx]
  simp only [start, forward, BlockMatrix.apply, hresolve, bind, Except.bind]

/-- A right-hand side that is too short is refused before the first step, unless a gap is found
first. -/
theorem start_short_bias (hA : A.matrix.Admissible) (bias : Tensor α) {x : List α}
    (hx : A.matrix.columns ≤ x.length) (hrows : (A.rows : Int) < A.matrix.rows) :
    A.start bias (.ofList x) = .error (.productLength A.matrix.rows.toNat A.rows) ∨
      ¬A.matrix.Solid ∧ A.start bias (.ofList x) = .error .lengthMismatch := by
  have hresolve := Operand.resolve_ofList hx
  rcases hA.apply_cases hresolve with hgap | ⟨y, hy, hlen⟩
  · refine .inr ⟨fun hsolid => ?_, ?_⟩
    · obtain ⟨y, hy, -⟩ := (hA.regular hsolid).exists_apply hresolve hx
      cases hgap.symm.trans hy
    · simp only [start, forward, hgap, bind, Except.bind]
  · have hpad : Dense.pad A.rows y = .error (.productLength A.matrix.rows.toNat A.rows) := by
      rw [Dense.pad, if_pos (by omega), hlen]
    exact .inl (by simp only [start, forward, hy, hpad, bind, Except.bind])

variable [Div α] [BEq α]

/-- The vectors keep the lengths of the axes in every state behind a step. -/
theorem Holds.sized_of_divides (h : A.Holds) {it : Iterate α} {trace : List (SearchStep α)}
    (hit : A.Sized it) (htrace : A.Divides it trace) : ∀ step ∈ trace, A.Sized step.iterate := by
  induction htrace with
  | done => simp
  | @step it q step rest hforward hadvance _ _ _ ih =>
    obtain ⟨q', hq', hlen⟩ := h.multiplies.exists_forward hit.p
    cases hforward.symm.trans hq'
    obtain ⟨step', hstep', hsized⟩ := h.multiplies.exists_advance hit hlen
    cases hadvance.symm.trans hstep'
    exact List.forall_mem_cons.2 ⟨hsized, ih hsized⟩

end LinearSystem

/-! ## Runs -/

variable [Div α] [BEq α] [LT α] [DecidableLT α]

/-- A right-hand side may be materialized before the run. -/
theorem LinearSettings.solve_of_rightHandSide {settings : LinearSettings α} {A : BlockMatrix α}
    {b : Operand α} {t : Tensor α} (hb : b.rightHandSide A.rows = .ok t) (x : Tensor α) :
    settings.solve A (.dense t) x = settings.solve A b x := by
  rw [solve_eq_bind, solve_eq_bind, hb]
  rfl

/-- A run that does not start is refused. -/
theorem LinearSettings.solve_of_start_error {settings : LinearSettings α} {A : BlockMatrix α}
    {b : Operand α} {f x : List α} {e : Error} (hb : b.rightHandSide A.rows = .ok (.ofList f))
    (hstart : (⟨A, f.length, x.length⟩ : LinearSystem α).start (.ofList f) (.ofList x) = .error e) :
    settings.solve A b (.ofList x) = .error e := by
  simp only [solve_eq_bind, hb, Tensor.leading, Tensor.shape_ofList, hstart, bind, Except.bind]

/-- A run is refused when the matrix has gaps or reaches further than the unknown or a list on the
right, and then it does not start. Otherwise it comes to an end: in all of its states the vectors
have the lengths of the axes, and no step divides by zero. -/
theorem LinearSettings.solve_outcome {A : BlockMatrix α} (hA : A.Admissible) {b : Operand α}
    (hb : b.OnAxis) (x : List α) (settings : LinearSettings α) :
    ∃ f : List α, b.rightHandSide A.rows = .ok (.ofList f) ∧
      (A.Exceeds b x ∨ ¬A.Solid → ∃ e,
        (e = .operand A.columns [x.length] ∨ e = .productLength A.rows.toNat f.length ∨
          ¬A.Solid ∧ e = .lengthMismatch) ∧
        (¬A.Exceeds b x → e = .lengthMismatch) ∧
        (⟨A, f.length, x.length⟩ : LinearSystem α).start (.ofList f) (.ofList x) = .error e ∧
        settings.solve A b (.ofList x) = .error e) ∧
      (¬A.Exceeds b x → A.Solid → ∃ (first : Iterate α) (out : Solution α),
        (⟨A, f.length, x.length⟩ : LinearSystem α).start (.ofList f) (.ofList x) = .ok first ∧
        settings.solve A b (.ofList x) = .ok out ∧ out.last.x.length = x.length ∧
        (⟨A, f.length, x.length⟩ : LinearSystem α).Sized first ∧
        (∀ step ∈ out.trace, (⟨A, f.length, x.length⟩ : LinearSystem α).Sized step.iterate) ∧
        (⟨A, f.length, x.length⟩ : LinearSystem α).Divides first out.trace) := by
  obtain ⟨f, hf, hshort⟩ := hb.exists_rightHandSide A.rows
  refine ⟨f, hf, fun hrefused => ?_, fun hfits hsolid => ?_⟩
  · by_cases hexceeds : A.Exceeds b x
    · by_cases hx : (x.length : Int) < A.columns
      · have hstart :=
          LinearSystem.start_short_unknown (A := ⟨A, f.length, x.length⟩) (.ofList f) hx
        exact ⟨_, .inl rfl, absurd hexceeds, hstart, solve_of_start_error hf hstart⟩
      · have hrows := hshort.1 (hexceeds.resolve_left hx)
        obtain hstart | ⟨hgap, hstart⟩ := LinearSystem.start_short_bias
          (A := ⟨A, f.length, x.length⟩) hA (.ofList f) (not_lt.1 hx) hrows
        · exact ⟨_, .inr (.inl rfl), absurd hexceeds, hstart, solve_of_start_error hf hstart⟩
        · exact ⟨_, .inr (.inr ⟨hgap, rfl⟩), absurd hexceeds, hstart,
            solve_of_start_error hf hstart⟩
    · have hgap := hrefused.resolve_left hexceeds
      obtain ⟨hx, hrows⟩ := not_or.1 hexceeds
      rw [hshort, not_lt] at hrows
      have hstart := LinearSystem.start_eq_error hA hgap hrows (not_lt.1 hx)
      exact ⟨_, .inr (.inr ⟨hgap, rfl⟩), fun _ => rfl, hstart, solve_of_start_error hf hstart⟩
  · obtain ⟨hx, hrows⟩ := not_or.1 hfits
    rw [hshort, not_lt] at hrows
    have hregular := hA.regular hsolid
    obtain ⟨first, out, hfirst, hout, hlen, hdivides⟩ :=
      exists_solve hregular hf hrows (not_lt.1 hx) settings
    have hholds : (⟨A, f.length, x.length⟩ : LinearSystem α).Holds :=
      ⟨hregular, hrows, not_lt.1 hx⟩
    obtain ⟨first', hfirst', hsized⟩ := hholds.exists_start rfl rfl
    cases hfirst.symm.trans hfirst'
    exact ⟨first, out, hfirst, hout, hlen, hsized, hholds.sized_of_divides hsized hdivides,
      hdivides⟩

end

/-! ## Commands -/

theorem Machine.of_rightHandSide [Zero α] [Add α] {rows : Int} {b : Operand α} {t : Tensor α}
    (h : Machine.rightHandSide rows b = .ok t) : b.rightHandSide rows = .ok t := by
  cases b with
  | dense b => exact h
  | sparse v =>
    obtain ⟨_, -, hb⟩ := bind_eq_ok.1 h
    exact hb

namespace Workspace

theorem put_put (w : Workspace) (o : Nat) (item item' : Item) :
    (w.put o item).put o item' = w.put o item' := by
  simp only [put, Array.setIfInBounds_setIfInBounds]

/-- The names of a command stand for a solver, a matrix, a right-hand side and an unknown. -/
structure Poses (w : Workspace) (solver matrix : String) (bias : Source) (x : String)
    (object unknown : Nat) (s : LinearSolver Float) (A : BlockMatrix Float) (item : Item)
    (xs : List Float) : Prop where
  solver_name : w.Names solver object
  solver : w.objects[object]? = some (.plain (.solver s))
  matrix : ∃ o, w.Names matrix o ∧ w.objects[o]? = some (.plain (.matrix A))
  bias : Session.exec (Session.source bias) w = (.ok item, w)
  unknown_name : w.Names x unknown
  unknown : w.objects[unknown]? = some (.plain (.tensor (.ofList xs)))

namespace Poses

variable {w : Workspace} {solver matrix x : String} {bias : Source} {object unknown : Nat}
  {s : LinearSolver Float} {A : BlockMatrix Float} {item : Item} {xs : List Float}

/-- What is no solver stays where the solver is changed. -/
theorem getElem?_put_solver (h : w.Poses solver matrix bias x object unknown s A item xs) {i : Nat}
    {other : Item} (hi : w.objects[i]? = some other) (hother : ∀ s, other ≠ .plain (.solver s))
    (s' : LinearSolver Float) : (w.put object (.plain (.solver s'))).objects[i]? = some other := by
  have hne : i ≠ object := by
    rintro rfl
    exact hother s (Option.some.inj (hi.symm.trans h.solver))
  rw [getElem?_put h.solver, if_neg hne, hi]

theorem unknown_ne (h : w.Poses solver matrix bias x object unknown s A item xs) :
    unknown ≠ object := by
  rintro rfl
  cases h.unknown.symm.trans h.solver

end Poses

end Workspace

namespace Session

variable {w : Workspace} {α β : Type}

/-- A computation that is never refused, and leaves values and assignments alone. -/
def Adds (m : Session α) : Prop := ∀ w : Workspace, ∃ a w', exec m w = (.ok a, w') ∧ w.Frames w'

theorem adds_pure (a : α) : Adds (pure a) := fun w => ⟨a, w, rfl, .refl w⟩

/-- A new object that is no assignment. -/
theorem adds_allocate {item : Item} (hitem : ∀ s ledger, item ≠ .assignment s ledger) :
    Adds (allocate item) := fun _ => ⟨_, _, exec_allocate item, .push hitem⟩

theorem adds_fresh (v : Value) : Adds (fresh v) := adds_allocate fun _ _ h => Item.noConfusion h

theorem adds_bind {m : Session α} {f : α → Session β} (hm : Adds m) (hf : ∀ a, Adds (f a)) :
    Adds (m >>= f) := by
  intro w
  obtain ⟨a, w₁, hfirst, hframes⟩ := hm w
  obtain ⟨b, w₂, hsecond, hframes'⟩ := hf a w₁
  exact ⟨b, w₂, (exec_bind_ok hfirst f).trans hsecond, hframes.trans hframes'⟩

theorem adds_mapM {f : α → Session β} {xs : List α} (hf : ∀ x, Adds (f x)) : Adds (xs.mapM f) := by
  induction xs with
  | nil =>
    rw [List.mapM_nil]
    exact adds_pure _
  | cons x xs ih =>
    rw [List.mapM_cons]
    exact adds_bind (hf x) fun y => adds_bind ih fun ys => adds_pure _

theorem adds_freshTexts (texts : List String) : Adds (freshTexts texts) :=
  adds_bind (adds_mapM adds_fresh) fun _ => adds_allocate fun _ _ h => Item.noConfusion h

/-- Values are found again behind such a computation. -/
theorem Adds.exists_exec {m : Session α} (hm : Adds m) {i j : Nat} {u v : Value}
    (hi : w.objects[i]? = some (.plain u)) (hj : w.objects[j]? = some (.plain v)) :
    ∃ a w', exec m w = (.ok a, w') ∧ w'.objects[i]? = some (.plain u) ∧
      w'.objects[j]? = some (.plain v) := by
  obtain ⟨a, w', hexec, hframes⟩ := hm w
  exact ⟨a, w', hexec, hframes.plain hi, hframes.plain hj⟩

/-- A report is never refused. -/
theorem adds_reported (reporting : Reporting) (report : List String) :
    Adds (reported reporting report) := by
  cases reporting with
  | mention =>
    rw [reported]
    split
    · exact adds_pure _
    · exact adds_bind (adds_fresh _) fun _ => adds_pure _
  | lines => exact adds_bind (adds_freshTexts report) fun _ => adds_pure _
  | cells =>
    refine adds_bind (adds_mapM fun line => adds_freshTexts _) fun rows => ?_
    exact adds_bind (adds_allocate fun _ _ h => Item.noConfusion h) fun _ => adds_pure _

variable {solver matrix x : String} {bias : Source} {object unknown : Nat} {s : LinearSolver Float}
  {A : BlockMatrix Float} {item : Item} {b : Operand Float} {xs : List Float}

/-- The operands of a solve, where the machine can hold them. -/
theorem linearOperands_eq_ok (hb : item.operand = .ok b)
    {operands : BlockMatrix Float × Operand Float × Tensor Float}
    (h : linearOperands (.plain (.matrix A)) item (.plain (.tensor (.ofList xs))) = .ok operands) :
    ∃ t, b.rightHandSide A.rows = .ok t ∧ operands = (A, .dense t, .ofList xs) := by
  simp only [linearOperands, hb] at h
  obtain ⟨t, ht, h⟩ := bind_eq_ok.1 h
  obtain ⟨-, -, h⟩ := bind_eq_ok.1 h
  obtain ⟨y, hy, h⟩ := bind_eq_ok.1 h
  cases hy
  obtain ⟨-, -, h⟩ := bind_eq_ok.1 h
  obtain ⟨-, -, h⟩ := bind_eq_ok.1 h
  cases h
  exact ⟨t, Machine.of_rightHandSide ht, rfl⟩

/-- A command on a solver is refused before the run, with the run, or not at all. A refused one
leaves a fresh solver and nothing else behind. -/
theorem exec_solve (h : w.Poses solver matrix bias x object unknown s A item xs)
    (hb : item.operand = .ok b) (reporting : Reporting) :
    (∀ e, linearOperands (.plain (.matrix A)) item (.plain (.tensor (.ofList xs))) = .error e →
      exec (solve solver matrix bias x reporting) w =
        (.error e, w.put object (.plain (.solver (.fresh s.settings))))) ∧
    ∀ operands,
      linearOperands (.plain (.matrix A)) item (.plain (.tensor (.ofList xs))) = .ok operands →
      (∀ e, s.settings.solve A b (.ofList xs) = .error e →
        exec (solve solver matrix bias x reporting) w =
          (.error e, w.put object (.plain (.solver (.fresh s.settings))))) ∧
      ∀ out, s.settings.solve A b (.ofList xs) = .ok out → out.last.x.length = xs.length →
        ∃ o w', exec (solve solver matrix bias x reporting) w = (.ok o, w') ∧
          w'.objects[unknown]? = some (.plain (.tensor (.ofList out.last.x))) ∧
          w'.objects[object]? =
            some (.plain (.solver ⟨s.settings, out.last.steps, out.ending.converged⟩)) := by
  obtain ⟨o, hname, ho⟩ := h.matrix
  have hmatrix := exec_item (w := w.put object (.plain (.solver (.fresh s.settings)))) hname
    (h.getElem?_put_solver ho (by simp) _)
  have hunknown := exec_read_of (h.getElem?_put_solver h.unknown (by simp) (.fresh s.settings))
  rw [solve, exec_bind_ok (exec_resolve h.unknown_name), exec_bind_ok h.bias,
    exec_bind_ok (exec_resolve h.solver_name), exec_bind_ok (exec_read_of h.solver)]
  dsimp only
  rw [LinearSolver.reset_eq, exec_bind_ok (exec_replace _ _), exec_bind_ok hmatrix,
    exec_bind_ok hunknown]
  refine ⟨fun e he => ?_, fun operands hoperands => ?_⟩
  · rw [he]
    rfl
  obtain ⟨t, ht, rfl⟩ := linearOperands_eq_ok hb hoperands
  rw [hoperands, exec_bind_ok (exec_lift _)]
  dsimp only
  rw [exec_bind_ok (exec_replace _ _), ← LinearSolver.reset_eq, LinearSolver.run_reset,
    LinearSolver.solve_eq, LinearSettings.solve_of_rightHandSide ht]
  refine ⟨fun e he => ?_, fun out hout hlen => ?_⟩
  · rw [he, Workspace.put_put]
    rfl
  -- the unknown is written last, and what follows only adds objects
  have hdata : Tensor.ofData (Tensor.ofList xs).shape out.last.x = .ok (.ofList out.last.x) := by
    rw [Tensor.shape_ofList, ← hlen]
    exact dif_pos (by simp)
  have hstays := h.getElem?_put_solver h.unknown (by simp)
    ⟨s.settings, out.last.steps, out.ending.converged⟩
  rw [hout, Workspace.put_put]
  dsimp only
  rw [exec_bind_ok (exec_lift _), exec_bind_ok (exec_lift_of hdata),
    exec_bind_ok (exec_replace _ _)]
  refine Adds.exists_exec ?_ ?_ ?_
  · refine adds_bind (adds_reported _ _) fun fields => ?_
    refine adds_bind (adds_fresh _) fun _ => adds_bind (adds_fresh _) fun _ =>
      adds_bind (adds_fresh _) fun _ => ?_
    exact adds_allocate fun _ _ h => Item.noConfusion h
  · exact (Workspace.getElem?_put hstays _ _).trans (if_pos rfl)
  · rw [Workspace.getElem?_put hstays, if_neg h.unknown_ne.symm, Workspace.getElem?_put h.solver,
      if_pos rfl]

end Session

end LeastSquares
