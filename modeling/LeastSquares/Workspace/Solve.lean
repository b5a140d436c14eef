import LeastSquares.Progress
import LeastSquares.Workspace.Operator
import LeastSquares.Workspace.Store

/-!
# Commands on solvers

A linear solve changes two objects in place: the tensor that holds the unknown, and the solver,
which remembers how the run went also when it was refused. A run of the minimizer changes nothing;
where it makes no move, it answers the assignment it was given. The results of a run are the fields
of a record, and its report is one of them.
-/

namespace LeastSquares.Session

/-! ## Reports -/

/-- The fields that keep the report of a run. -/
def reported (reporting : Reporting) (report : List String) : Session (List (String × Nat)) := do
  match reporting with
  | .mention => if report.isEmpty then return [] else return [("printed", ← fresh (.truth true))]
  | .lines => return [("log", ← freshTexts report)]
  | .cells => do
    let rows ← report.mapM fun line => freshTexts (Progress.cells line)
    return [("log", ← allocate (.list rows))]

/-! ## Linear solver -/

/-- The operands of a linear solve: the right-hand side, the unknown and the matrix, refused in the
order in which a run looks at them. -/
def linearOperands (matrix bias unknown : Item) :
    Except Error (BlockMatrix Float × Operand Float × Tensor Float) := do
  match matrix, bias with
  | .plain (.matrix A), _ => do
    let b ← bias.operand >>= Machine.rightHandSide A.rows
    let _ ← b.leading
    let x ← unknown.tensor .noAttribute
    let _ ← x.leading
    Machine.checkSystem A x
    .ok (A, .dense b, x)
  | _, .plain (.vector _) => .error .noAttribute
  | _, _ => do
    let b ← bias.tensor .noAttribute
    let _ ← b.leading
    let x ← unknown.tensor .noAttribute
    let _ ← x.leading
    .error .notSupported

/-- Runs a linear solver. The unknown and the solver change in place, the solver also when the run
is refused. The results are the unknown, which is the tensor given, the number of steps, whether the
run converged, and its report. -/
def solve (solver matrix : String) (bias : Source) (x : String) (reporting : Reporting) :
    Session Nat := do
  let unknown ← resolve x
  let bias ← source bias
  let object ← resolve solver
  match ← read object with
  | .plain (.solver solver) => do
    let solver := solver.reset
    replace object (.plain (.solver solver))
    let (A, b, start) ← lift (linearOperands (← item matrix) bias (← read unknown))
    let (outcome, solver) := solver.run A b start
    replace object (.plain (.solver solver))
    let solution ← lift outcome
    let result ← lift (Tensor.ofData start.shape solution.last.x)
    replace unknown (.plain (.tensor result))
    let report ← reported reporting (Progress.ofSolution solver.settings solution)
    allocate (.record ([("x", unknown), ("same", ← fresh (.truth true)),
      ("step", ← fresh (.whole solver.steps)),
      ("converged", ← fresh (.truth solver.converged))] ++ report))
  | _ => throw .noAttribute

/-! ## Minimizer -/

/-- A factor whose linear models are refused where the machine cannot hold them. -/
def guarded (f : Factor Float) : Factor Float :=
  { f with linearize := fun s => do
      let model ← f.linearize s
      Machine.checkModel model
      .ok model }

/-- The graph that an object stands for; a factor is a graph of its own. -/
def problem (apart : Bool) (object : Nat) : Session (Graph Float) := do
  let depth ← depth
  match ← read object with
  | .graph elements => do
    let factors ← elements.mapM (factorTo apart depth)
    return ⟨factors.map fun f? => guarded (.orRefused f?)⟩
  | _ => do
    match ← factorTo apart depth object with
    | some f => return ⟨[guarded f]⟩
    | none => throw .noAttribute

/-- What an object tells about the settings of a run. -/
inductive KnownSettings where
  | all (settings : Minimizer.Settings Float)
  /-- Only whether progress is reported. -/
  | verbosity (verbose : Bool)
  | nothing

/-- The settings of a name. The standard ones are taken without a name and for an object that counts
as false. -/
def minimizerSettings : Option String → Session KnownSettings
  | none => return .all .standard
  | some name => do
    match ← item name with
    | .plain (.settings settings) => return .all settings
    | .plain (.solver solver) => return .verbosity solver.settings.verbose
    | other => return if ← lift other.truth then .nothing else .all .standard

/-- Runs the minimizer under settings of which only some may be known, so that only a run that makes
no attempt to move is complete. -/
def minimizeKnown (g : Graph Float) (s : Assignment Float) :
    KnownSettings → Except Error (Minimizer.Outcome Float × List String)
  | .all settings => do
    let outcome ← settings.minimize g s
    .ok (outcome, Progress.ofOutcome settings outcome)
  | .verbosity verbose => do
    let settings := { Minimizer.Settings.standard with maxIterations := 0, verbose }
    let outcome ← settings.minimize g s
    match outcome.ending with
    | .unboundedStart _ | .nothingToMove => .ok (outcome, Progress.ofOutcome settings outcome)
    | _ => .error .noAttribute
  | .nothing => do
    let _ ← g.cost s
    .error .noAttribute

/-- Refuses a run at an object that is no assignment, unless it ends before there is something to
move: at a cost that is not finite, or at a block vector without positions. -/
def checkApart (store : Item) : Minimizer.Ending Float → Except Error Unit
  | .unboundedStart _ => .ok ()
  | _ =>
    match store with
    | .plain (.vector v) => if v.dimension = 0 then .ok () else .error .noAttribute
    | _ => .error .noAttribute

/-- Runs the minimizer and names the assignment it reached, if a name is given. The cost is looked
at before the settings, and the settings before the assignment. The results are the assignment
reached, whether it is the one given, and the report. -/
def minimize (graph store : String) (settings? result? : Option String) (reporting : Reporting) :
    Session Nat := do
  let object ← resolve store
  let settings ← minimizerSettings settings?
  let item ← read object
  let (s, apart) := standpoint item
  let g ← problem apart (← resolve graph)
  let (outcome, report) ← lift (minimizeKnown g s settings)
  if apart then lift (checkApart item outcome.ending)
  let same := outcome.trace.isEmpty
  let reached ← if same then pure object else allocateAssignment outcome.assignment item.ledger
  if let some name := result? then bind name reached
  let report ← reported reporting report
  allocate (.record ([("values", reached), ("same", ← fresh (.truth same))] ++ report))

end LeastSquares.Session
