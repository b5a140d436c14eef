import LeastSquares.Proofs.Loops
import LeastSquares.Proofs.Refusals

/-!
# Solvers that are used again

A solver is an object that every call changes: it is reset, and then it remembers how the run went.
Only its settings matter to a call. So a call does the same with a solver that was used before, in
calls that returned or were refused, as with a fresh one of the same settings
(`Session.exec_solve_fresh`), and calls keep the settings (`SolverCall.serves_run`), one after the
other (`Workspace.serves_afterCalls`).

A call that returns has written the solution of a run into its unknown (`SolverCall.exec_run`). So
what is known of the loop of the solver holds of the solver object: see `Session.solve_reused`. This
is about floating-point numbers with all their special values.
-/

namespace LeastSquares

open Session

/-! ## Calls -/

/-- A call of a solver, by the names of its operands. -/
structure SolverCall where
  matrix : String
  bias : Source
  unknown : String
  reporting : Reporting

namespace SolverCall

/-- The call of the solver that a name stands for. -/
def run (call : SolverCall) (solver : String) : Session Nat :=
  Session.solve solver call.matrix call.bias call.unknown call.reporting

/-- What the names of a call stand for. -/
structure Poses (call : SolverCall) (w : Workspace) (A : BlockMatrix Float) (b : Operand Float)
    (unknown : Nat) (t : Tensor Float) : Prop where
  matrix : ∃ o, w.Names call.matrix o ∧ w.objects[o]? = some (.plain (.matrix A))
  bias : ∃ item, exec (source call.bias) w = (.ok item, w) ∧ item.operand = .ok b
  unknown_name : w.Names call.unknown unknown
  unknown : w.objects[unknown]? = some (.plain (.tensor t))

end SolverCall

namespace Workspace

/-- The workspace behind calls of one solver, of which some may have been refused. -/
def afterCalls (w : Workspace) (solver : String) (calls : List SolverCall) : Workspace :=
  calls.foldl (fun w call => (exec (call.run solver) w).2) w

/-- A name stands for a solver of the given settings. -/
structure Serves (w : Workspace) (solver : String) (o : Nat) (settings : LinearSettings Float) :
    Prop where
  name : w.Names solver o
  object : ∃ s : LinearSolver Float, w.objects[o]? = some (.plain (.solver s)) ∧
    s.settings = settings

end Workspace

namespace Session

variable {α β : Type} {w : Workspace}

/-- A computation that only reads is refused or gives something, and leaves the workspace. -/
theorem Reads.exec_cases {m : Session α} (h : Reads m) (w : Workspace) :
    (∃ e, exec m w = (.error e, w)) ∨ ∃ a, exec m w = (.ok a, w) := by
  have hw := h w
  cases hm : exec m w with
  | mk result w' =>
    obtain rfl : w' = w := by rw [← hw, hm]
    cases result with
    | error e => exact .inl ⟨e, rfl⟩
    | ok a => exact .inr ⟨a, rfl⟩

/-! ## Names -/

/-- A computation that gives no names. -/
def KeepsNames (m : Session α) : Prop := ∀ w : Workspace, (exec m w).2.names = w.names

theorem Reads.keepsNames {m : Session α} (h : Reads m) : KeepsNames m := fun w => by rw [h w]

theorem keepsNames_allocate (item : Item) : KeepsNames (allocate item) := fun _ => rfl

theorem keepsNames_fresh (v : Value) : KeepsNames (fresh v) := fun _ => rfl

theorem keepsNames_replace (o : Nat) (item : Item) : KeepsNames (replace o item) := fun _ => rfl

theorem keepsNames_bind {m : Session α} {f : α → Session β} (hm : KeepsNames m)
    (hf : ∀ a, KeepsNames (f a)) : KeepsNames (m >>= f) := by
  intro w
  have hfirst := hm w
  rw [exec_bind]
  cases hresult : exec m w with
  | mk result w' =>
    rw [hresult] at hfirst
    cases result with
    | ok a => exact (hf a w').trans hfirst
    | error e => exact hfirst

theorem keepsNames_mapM {f : α → Session β} {xs : List α} (hf : ∀ x, KeepsNames (f x)) :
    KeepsNames (xs.mapM f) := by
  induction xs with
  | nil =>
    rw [List.mapM_nil]
    exact (reads_pure _).keepsNames
  | cons x xs ih =>
    rw [List.mapM_cons]
    exact keepsNames_bind (hf x) fun y => keepsNames_bind ih fun ys => (reads_pure _).keepsNames

theorem keepsNames_freshTexts (texts : List String) : KeepsNames (freshTexts texts) :=
  keepsNames_bind (keepsNames_mapM fun _ => keepsNames_fresh _) fun _ => keepsNames_allocate _

theorem keepsNames_reported (reporting : Reporting) (report : List String) :
    KeepsNames (reported reporting report) := by
  cases reporting with
  | mention =>
    rw [reported]
    split
    · exact (reads_pure _).keepsNames
    · exact keepsNames_bind (keepsNames_fresh _) fun _ => (reads_pure _).keepsNames
  | lines =>
    exact keepsNames_bind (keepsNames_freshTexts report) fun _ => (reads_pure _).keepsNames
  | cells =>
    refine keepsNames_bind (keepsNames_mapM fun _ => keepsNames_freshTexts _) fun rows => ?_
    exact keepsNames_bind (keepsNames_allocate _) fun _ => (reads_pure _).keepsNames

/-- A call of a solver gives no names. -/
theorem keepsNames_solve (solver matrix : String) (bias : Source) (x : String)
    (reporting : Reporting) : KeepsNames (solve solver matrix bias x reporting) := by
  refine keepsNames_bind (reads_resolve x).keepsNames fun unknown => ?_
  refine keepsNames_bind (reads_source bias).keepsNames fun bias => ?_
  refine keepsNames_bind (reads_resolve solver).keepsNames fun object => ?_
  refine keepsNames_bind (reads_read object).keepsNames fun item => ?_
  split
  · refine keepsNames_bind (keepsNames_replace _ _) fun _ => ?_
    refine keepsNames_bind (reads_item matrix).keepsNames fun matrix => ?_
    refine keepsNames_bind (reads_read unknown).keepsNames fun start => ?_
    refine keepsNames_bind (reads_lift _).keepsNames fun operands => ?_
    refine keepsNames_bind (keepsNames_replace _ _) fun _ => ?_
    refine keepsNames_bind (reads_lift _).keepsNames fun solution => ?_
    refine keepsNames_bind (reads_lift _).keepsNames fun result => ?_
    refine keepsNames_bind (keepsNames_replace _ _) fun _ => ?_
    refine keepsNames_bind (keepsNames_reported _ _) fun report => ?_
    refine keepsNames_bind (keepsNames_fresh _) fun _ => ?_
    refine keepsNames_bind (keepsNames_fresh _) fun _ => ?_
    exact keepsNames_bind (keepsNames_fresh _) fun _ => keepsNames_allocate _
  · exact (reads_throw _).keepsNames

/-! ## Operands -/

/-- What the items of a call hold where its operands are not refused. -/
theorem of_linearOperands {matrix bias unknown : Item}
    {operands : BlockMatrix Float × Operand Float × Tensor Float}
    (h : linearOperands matrix bias unknown = .ok operands) :
    ∃ A b t f, matrix = .plain (.matrix A) ∧ bias.operand = .ok b ∧
      unknown = .plain (.tensor t) ∧ b.rightHandSide A.rows = .ok f ∧
      operands = (A, .dense f, t) := by
  unfold linearOperands at h
  split at h
  · rename_i A
    obtain ⟨f, hf, h⟩ := bind_eq_ok.1 h
    obtain ⟨b, hb, hf⟩ := bind_eq_ok.1 hf
    obtain ⟨-, -, h⟩ := bind_eq_ok.1 h
    obtain ⟨t, ht, h⟩ := bind_eq_ok.1 h
    obtain ⟨-, -, h⟩ := bind_eq_ok.1 h
    obtain ⟨-, -, h⟩ := bind_eq_ok.1 h
    cases h
    refine ⟨A, b, t, f, rfl, hb, ?_, Machine.of_rightHandSide hf, rfl⟩
    unfold Item.tensor Item.tensor? at ht
    split at ht
    · rename_i heq
      split at heq
      · cases heq
        cases ht
        rfl
      · cases heq
    · cases ht
  · cases h
  · obtain ⟨_, -, h⟩ := bind_eq_ok.1 h
    obtain ⟨_, -, h⟩ := bind_eq_ok.1 h
    obtain ⟨_, -, h⟩ := bind_eq_ok.1 h
    obtain ⟨_, -, h⟩ := bind_eq_ok.1 h
    cases h

/-- No solver is a right-hand side, whatever it remembers. -/
theorem linearOperands_solver (matrix unknown : Item) (s s' : LinearSolver Float) :
    linearOperands matrix (.plain (.solver s)) unknown =
      linearOperands matrix (.plain (.solver s')) unknown := by
  cases matrix with
  | plain v => cases v <;> rfl
  | _ => rfl

/-- The results of a call are new objects. -/
theorem adds_results (reporting : Reporting) (report : List String) (unknown steps : Nat)
    (converged : Bool) : Adds (do
      let report ← reported reporting report
      allocate (.record ([("x", unknown), ("same", ← fresh (.truth true)),
        ("step", ← fresh (.whole steps)),
        ("converged", ← fresh (.truth converged))] ++ report))) := by
  refine adds_bind (adds_reported _ _) fun fields => ?_
  refine adds_bind (adds_fresh _) fun _ => adds_bind (adds_fresh _) fun _ => ?_
  exact adds_bind (adds_fresh _) fun _ => adds_allocate fun _ _ h => Item.noConfusion h

variable {o : Nat} {s : LinearSolver Float}

/-- Two objects that are changed one after the other. -/
theorem getElem?_put_both {i j : Nat} {item item' : Item} (hi : w.objects[i]? = some item)
    (hj : w.objects[j]? = some item') (hne : j ≠ i) (new new' : Item) :
    ((w.put i new).put j new').objects[j]? = some new' ∧
      ((w.put i new).put j new').objects[i]? = some new := by
  have hj' : (w.put i new).objects[j]? = some item' := by
    rw [Workspace.getElem?_put hi, if_neg hne, hj]
  constructor
  · rw [Workspace.getElem?_put hj', if_pos rfl]
  · rw [Workspace.getElem?_put hj', if_neg hne.symm, Workspace.getElem?_put hi, if_pos rfl]

/-- What stands beside a solver is not seen to change when the solver does. -/
theorem of_getElem?_put_solver (ho : w.objects[o]? = some (.plain (.solver s)))
    {s' : LinearSolver Float} {i : Nat} {item : Item}
    (hi : (w.put o (.plain (.solver s'))).objects[i]? = some item)
    (hitem : item ≠ .plain (.solver s')) : i ≠ o ∧ w.objects[i]? = some item := by
  rw [Workspace.getElem?_put ho] at hi
  split at hi
  · exact absurd (Option.some.inj hi).symm hitem
  · rename_i hne
    exact ⟨hne, hi⟩

/-- A right-hand side is found again where a solver has changed, or it is that solver. -/
theorem exec_source_put (ho : w.objects[o]? = some (.plain (.solver s))) {bias : Source}
    {item : Item} (h : exec (source bias) w = (.ok item, w)) (s' : LinearSolver Float) :
    ∃ item', exec (source bias) (w.put o (.plain (.solver s'))) =
        (.ok item', w.put o (.plain (.solver s'))) ∧
      ∀ matrix unknown,
        linearOperands matrix item' unknown = linearOperands matrix item unknown := by
  cases bias with
  | literal data =>
    cases hdata : data.toTensor with
    | error e =>
      rw [source, hdata] at h
      cases h
    | ok t =>
      rw [source, hdata] at h
      cases h
      exact ⟨_, by rw [source, hdata]; rfl, fun _ _ => rfl⟩
  | name name =>
    obtain ⟨i, hi, hread⟩ := of_reads_bind (reads_resolve name) h
    have hname : (w.put o (.plain (.solver s'))).Names name i := (of_exec_resolve hi :)
    refine ⟨_, (exec_bind_ok (exec_resolve hname) _).trans (exec_read i), fun matrix unknown => ?_⟩
    rw [exec_read, Prod.mk.injEq, Except.ok.injEq] at hread
    rw [Workspace.getElem?_put ho]
    split
    · rename_i heq
      rw [heq, ho, Option.getD_some] at hread
      rw [← hread.1]
      exact linearOperands_solver matrix unknown s' s
    · rw [hread.1]

/-- Whatever a solver remembers, it serves a call as well as a fresh one. -/
theorem exec_solve_fresh {solver matrix x : String} {bias : Source} {unknown : Nat} {item : Item}
    (hname : w.Names solver o) (ho : w.objects[o]? = some (.plain (.solver s)))
    (hx : w.Names x unknown) (hbias : exec (source bias) w = (.ok item, w))
    (reporting : Reporting) :
    exec (solve solver matrix bias x reporting) w =
      exec (solve solver matrix bias x reporting)
        (w.put o (.plain (.solver (.fresh s.settings)))) := by
  obtain ⟨item', hbias', hoperands⟩ := exec_source_put ho hbias (.fresh s.settings)
  have hfresh : (w.put o (.plain (.solver (.fresh s.settings)))).objects[o]? =
      some (.plain (.solver (.fresh s.settings))) :=
    (Workspace.getElem?_put ho _ o).trans (if_pos rfl)
  have hx' : (w.put o (.plain (.solver (.fresh s.settings)))).Names x unknown := hx
  have hname' : (w.put o (.plain (.solver (.fresh s.settings)))).Names solver o := hname
  rw [solve, exec_bind_ok (exec_resolve hx), exec_bind_ok hbias, exec_bind_ok (exec_resolve hname),
    exec_bind_ok (exec_read_of ho), exec_bind_ok (exec_resolve hx'), exec_bind_ok hbias',
    exec_bind_ok (exec_resolve hname'), exec_bind_ok (exec_read_of hfresh)]
  dsimp only
  rw [exec_bind_ok (exec_replace _ _), exec_bind_ok (exec_replace _ _), Workspace.put_put]
  simp only [hoperands]
  rfl

end Session

/-! ## What a call does -/

namespace SolverCall

variable {call : SolverCall} {w : Workspace} {solver : String} {o : Nat} {s : LinearSolver Float}

/-- What a call that returns leaves behind: the solution of a run in its unknown, and in the solver
how the run went. -/
structure Leaves (call : SolverCall) (w : Workspace) (o : Nat) (settings : LinearSettings Float)
    (A : BlockMatrix Float) (b : Operand Float) (unknown : Nat) (t : Tensor Float)
    (out : Solution Float) (w' : Workspace) : Prop where
  poses : call.Poses w A b unknown t
  solve_eq : settings.solve A b t = .ok out
  unknown : ∃ result, Tensor.ofData t.shape out.last.x = .ok result ∧
    w'.objects[unknown]? = some (.plain (.tensor result))
  solver : w'.objects[o]? =
    some (.plain (.solver ⟨settings, out.last.steps, out.ending.converged⟩))

/-- A call is refused before it reaches the solver, or it is refused and has changed nothing but
what the solver remembers, or it returns. -/
theorem exec_run (hname : w.Names solver o) (ho : w.objects[o]? = some (.plain (.solver s))) :
    (∃ e, exec (call.run solver) w = (.error e, w)) ∨
    (∃ e s', s'.settings = s.settings ∧
      exec (call.run solver) w = (.error e, w.put o (.plain (.solver s')))) ∨
    ∃ r w' A b unknown t out, exec (call.run solver) w = (.ok r, w') ∧
      call.Leaves w o s.settings A b unknown t out w' := by
  rw [run, solve]
  obtain ⟨e, he⟩ | ⟨u, hu⟩ := (reads_resolve call.unknown).exec_cases w
  · exact .inl ⟨e, exec_bind_error he _⟩
  rw [exec_bind_ok hu]
  obtain ⟨e, he⟩ | ⟨item, hitem⟩ := (reads_source call.bias).exec_cases w
  · exact .inl ⟨e, exec_bind_error he _⟩
  rw [exec_bind_ok hitem, exec_bind_ok (exec_resolve hname), exec_bind_ok (exec_read_of ho)]
  dsimp only
  rw [LinearSolver.reset_eq, exec_bind_ok (exec_replace _ _)]
  refine .inr ?_
  obtain ⟨e, he⟩ | ⟨matrix, hmatrix⟩ := (reads_item call.matrix).exec_cases
    (w.put o (.plain (.solver (.fresh s.settings))))
  · exact .inl ⟨e, .fresh s.settings, rfl, exec_bind_error he _⟩
  rw [exec_bind_ok hmatrix, exec_bind_ok (exec_read u)]
  cases hoperands : linearOperands matrix item
      (((w.put o (.plain (.solver (.fresh s.settings)))).objects[u]?).getD (.plain .nothing)) with
  | error e => exact .inl ⟨e, .fresh s.settings, rfl, exec_bind_error (exec_lift _) _⟩
  | ok operands =>
    obtain ⟨A, b, t, f, rfl, hb, ht, hf, rfl⟩ := of_linearOperands hoperands
    obtain ⟨i, hi, hA⟩ := of_exec_item hmatrix (by simp)
    obtain ⟨-, hA⟩ := of_getElem?_put_solver ho hA (by simp)
    obtain ⟨hne, ht⟩ := of_getElem?_put_solver ho (of_getD ht (by simp)) (by simp)
    have hposes : call.Poses w A b u t :=
      ⟨⟨i, hi, hA⟩, ⟨item, hitem, hb⟩, of_exec_resolve hu, ht⟩
    rw [exec_bind_ok (exec_lift _)]
    dsimp only
    rw [exec_bind_ok (exec_replace _ _), Workspace.put_put, ← LinearSolver.reset_eq,
      LinearSolver.run_reset, LinearSolver.solve_eq, LinearSettings.solve_of_rightHandSide hf]
    cases hsolve : s.settings.solve A b t with
    | error e => exact .inl ⟨e, .fresh s.settings, rfl, exec_bind_error (exec_lift _) _⟩
    | ok out =>
      dsimp only
      rw [exec_bind_ok (exec_lift _)]
      cases hresult : Tensor.ofData t.shape out.last.x with
      | error e =>
        exact .inl ⟨e, ⟨s.settings, out.last.steps, out.ending.converged⟩, rfl,
          exec_bind_error (exec_lift _) _⟩
      | ok result =>
        rw [exec_bind_ok (exec_lift _), exec_bind_ok (exec_replace _ _)]
        refine .inr ?_
        -- the unknown is written last, and what follows only adds objects
        obtain ⟨hu, hs⟩ := getElem?_put_both ho ht hne
          (.plain (.solver ⟨s.settings, out.last.steps, out.ending.converged⟩))
          (.plain (.tensor result))
        have hadds := adds_results call.reporting (Progress.ofSolution s.settings out) u
          out.last.steps out.ending.converged
        obtain ⟨r, w', hexec, hu', hs'⟩ := hadds.exists_exec hu hs
        exact ⟨r, w', A, b, u, t, out, hexec, hposes, hsolve, ⟨result, hresult, hu'⟩, hs'⟩

/-- A call keeps the settings of its solver. -/
theorem serves_run {settings : LinearSettings Float} (h : w.Serves solver o settings)
    (call : SolverCall) : (exec (call.run solver) w).2.Serves solver o settings := by
  obtain ⟨hname, s, ho, rfl⟩ := h
  have hnames : (exec (call.run solver) w).2.Names solver o := by
    rw [Workspace.Names, run, keepsNames_solve]
    exact hname
  refine ⟨hnames, ?_⟩
  obtain ⟨e, he⟩ | ⟨e, s', hs', he⟩ | ⟨r, w', A, b, unknown, t, out, hr, hleaves⟩ :=
    call.exec_run hname ho
  · rw [he]
    exact ⟨s, ho, rfl⟩
  · rw [he]
    exact ⟨s', (Workspace.getElem?_put ho _ o).trans (if_pos rfl), hs'⟩
  · rw [hr]
    exact ⟨_, hleaves.solver, rfl⟩

end SolverCall

/-- Calls keep the settings of their solver, whatever becomes of them. -/
theorem Workspace.serves_afterCalls {w : Workspace} {solver : String} {o : Nat}
    {settings : LinearSettings Float} (h : w.Serves solver o settings) (calls : List SolverCall) :
    (w.afterCalls solver calls).Serves solver o settings := by
  induction calls generalizing w with
  | nil => exact h
  | cons call calls ih => exact ih (call.serves_run h)

namespace Session

/-- A solver can be used again and again. Behind any calls, of which some may have been refused, its
name stands for a solver of the same settings. Every further call whose operands can be looked up
then gives the same result, and leaves the same workspace behind, as if the solver was fresh. One
that returns has written the solution of a run into the unknown, and has counted no more steps than
the budget allows. If the solver did not converge, it has used the budget up: neither is the normal
residual zero, nor was the last movement small. -/
theorem solve_reused {w : Workspace} {solver : String} {o : Nat} {s : LinearSolver Float}
    (hname : w.Names solver o) (ho : w.objects[o]? = some (.plain (.solver s)))
    (earlier : List SolverCall) (call : SolverCall) :
    let before := w.afterCalls solver earlier
    let outcome := exec (call.run solver) before
    before.Serves solver o s.settings ∧
    (∀ unknown item, before.Names call.unknown unknown →
      exec (source call.bias) before = (.ok item, before) →
      outcome = exec (call.run solver) (before.put o (.plain (.solver (.fresh s.settings))))) ∧
    ∀ r after, outcome = (.ok r, after) → ∃ A b unknown t out,
      call.Leaves before o s.settings A b unknown t out after ∧
      (out.last.steps : Int) ≤ max 0 s.settings.maxIterations ∧
      (out.ending.converged = false →
        (out.last.steps : Int) = max 0 s.settings.maxIterations ∧
        ¬(out.last.gamma == 0) = true ∧
        ∀ step ∈ out.trace.getLast?, ¬step.movement < s.settings.precision) := by
  intro before outcome
  have hserves : before.Serves solver o s.settings :=
    Workspace.serves_afterCalls ⟨hname, s, ho, rfl⟩ earlier
  obtain ⟨hname', s', ho', hsettings⟩ := hserves
  refine ⟨⟨hname', s', ho', hsettings⟩, fun unknown item hx hbias => ?_, fun r after hr => ?_⟩
  · rw [← hsettings]
    exact exec_solve_fresh hname' ho' hx hbias call.reporting
  · have hcases := call.exec_run hname' ho'
    rw [hsettings] at hcases
    obtain ⟨e, he⟩ | ⟨e, _, -, he⟩ | ⟨_, _, A, b, unknown, t, out, hreturns, hleaves⟩ := hcases
    · cases hr.symm.trans he
    · cases hr.symm.trans he
    · cases hr.symm.trans hreturns
      obtain ⟨heads, hruns⟩ := LinearSettings.solve_eq_ok.1 hleaves.solve_eq
      exact ⟨A, b, unknown, t, out, hleaves, hruns.steps_le, hruns.exhausted⟩

/-- A solver that remembers seven steps is called with an unknown that is too short, which is
refused, and then with one of two entries. -/
theorem solve_reused_refused :
    let A : BlockMatrix Float := ⟨[1, 2], [.ofBounds 0 1 0 2]⟩
    let s : LinearSolver Float := ⟨.standard, 7, true⟩
    let w : Workspace := ⟨#[.plain (.solver s), .plain (.matrix A),
        .plain (.vector ⟨[3], [⟨0, 1⟩]⟩), .plain (.tensor (.ofList [0, 0])),
        .plain (.tensor (.ofList [5]))],
      [("cgls", 0), ("A", 1), ("b", 2), ("x", 3), ("y", 4)]⟩
    let short : SolverCall := ⟨"A", .name "b", "y", .mention⟩
    let call : SolverCall := ⟨"A", .name "b", "x", .mention⟩
    w.Names "cgls" 0 ∧ w.objects[0]? = some (.plain (.solver s)) ∧
      (∃ e w', exec (short.run "cgls") w = (.error e, w')) ∧
      exec (short.run "cgls") w =
        exec (short.run "cgls") (w.put 0 (.plain (.solver (.fresh .standard)))) ∧
      ∃ r after B b unknown t out,
        exec (call.run "cgls") (w.afterCalls "cgls" [short]) = (.ok r, after) ∧
        call.Leaves (w.afterCalls "cgls" [short]) 0 .standard B b unknown t out after ∧
        (out.last.steps : Int) ≤ 400 := by
  intro A s w short call
  have hw : w.Names "cgls" 0 := rfl
  have hs : w.objects[0]? = some (.plain (.solver s)) := rfl
  have hA : A.Admissible := ⟨by decide, by decide⟩
  have hb : (Operand.sparse (⟨[3], [⟨0, 1⟩]⟩ : BlockVector Float)).OnAxis :=
    .blocks ⟨by decide, by decide⟩
  -- the first call is refused
  have hy : w.Poses "cgls" "A" (.name "b") "y" 0 4 s A (.plain (.vector ⟨[3], [⟨0, 1⟩]⟩)) [5] :=
    ⟨rfl, rfl, ⟨1, rfl, rfl⟩, rfl, rfl, rfl⟩
  obtain ⟨_, -, hshort, -⟩ := LinearSettings.solve_outcome hA hb [5] s.settings
  obtain ⟨e, -, -, -, he⟩ := hshort (.inl (.inl (by decide)))
  have hrefused : exec (short.run "cgls") w =
      (.error e, w.put 0 (.plain (.solver (.fresh .standard)))) :=
    ((exec_solve hy rfl .mention).2 _ rfl).1 e he
  have hbefore : w.afterCalls "cgls" [short] = w.put 0 (.plain (.solver (.fresh .standard))) :=
    congrArg Prod.snd hrefused
  -- the second one returns
  have hx : (w.put 0 (.plain (.solver (.fresh .standard)))).Poses "cgls" "A" (.name "b") "x" 0 3
      (.fresh .standard) A (.plain (.vector ⟨[3], [⟨0, 1⟩]⟩)) [0, 0] :=
    ⟨rfl, rfl, ⟨1, rfl, rfl⟩, rfl, rfl, rfl⟩
  obtain ⟨_, -, -, hlong⟩ := LinearSettings.solve_outcome hA hb [0, 0] .standard
  have hfits : ¬A.Exceeds (.sparse ⟨[3], [⟨0, 1⟩]⟩) [0, 0] := by
    rintro (hlt | ⟨f, hf, -⟩)
    · exact absurd hlt (by decide)
    · cases hf
  obtain ⟨_, out, -, hout, hlen, -⟩ := hlong hfits (by decide)
  obtain ⟨r, after, hr, -⟩ := ((exec_solve hx rfl .mention).2 _ rfl).2 out hout hlen
  have hreturns : exec (call.run "cgls") (w.afterCalls "cgls" [short]) = (.ok r, after) := by
    rw [hbefore]
    exact hr
  obtain ⟨-, hfresh, -⟩ := solve_reused hw hs [] short
  obtain ⟨-, -, hdone⟩ := solve_reused hw hs [short] call
  obtain ⟨B, b, unknown, t, out, hleaves, hsteps, -⟩ := hdone r after hreturns
  exact ⟨hw, hs, ⟨e, _, hrefused⟩, hfresh 4 _ rfl rfl, r, after, B, b, unknown, t, out, hreturns,
    hleaves, hsteps⟩

end Session

end LeastSquares
