import LeastSquares.Decimal.Text
import LeastSquares.Minimizer

/-!
# Progress reports

The lines that a verbose run reports: a title, a table with a row for each step, and how the run
ended. A report is made from the outcome of a run, and a run that was refused reports nothing.

Cells are separated by bars. A cell read as a number next to zero can be marked as such
(`cells`), which hides the rounding errors in it.
-/

namespace LeastSquares.Progress

/-- The cells of a row between bars. -/
def row (cells : List String) : String := " | ".intercalate cells

/-- A number in a cell: six digits behind the point, at least twelve characters. -/
def cell (x : Float) : String := Decimal.padLeft 12 (Decimal.scientific 6 x)

/-- A count in a cell of the given width. -/
def countCell (width n : Nat) : String := Decimal.padLeft width (toString n)

/-- The title of a table, its header and a rule below it. -/
def heading (title header : String) : List String :=
  [title, header, String.ofList (List.replicate header.length '-')]

/-- The header of a table from names and widths. -/
def header (columns : List (String × Nat)) : String :=
  row (columns.map fun c => Decimal.padLeft c.2 c.1)

/-! ## Linear solver -/

/-- The row of a step. -/
def searchRow (step : SearchStep Float) : String :=
  row [countCell 4 step.iterate.steps, cell step.iterate.gamma, cell step.alpha,
    cell step.movement]

/-- How a linear run ended. -/
def linearEnding (solution : Solution Float) : String :=
  match solution.ending with
  | .stationary => "Converged: normal-equations residual is zero at the initial guess."
  | .nullDirection =>
    let steps := solution.last.steps
    s!"Converged: search direction is in the null space at iteration {steps}."
  | .smallMovement => "Converged: step norm below precision."
  | .vanished => "Converged: normal-equations residual vanished."
  | .exhausted => "Reached max iterations."

/-- The report of a linear run. -/
def ofSolution (settings : LinearSettings Float) (solution : Solution Float) : List String :=
  if settings.verbose then
    heading "Starting CGLS"
        (header [("Iter", 4), ("Gamma", 12), ("Alpha", 12), ("Step Norm^2", 12)])
      ++ solution.trace.map searchRow ++ [linearEnding solution]
  else []

/-! ## Minimizer -/

/-- The row of a move. -/
def moveRow (move : Minimizer.Move Float) : String :=
  row [countCell 4 move.index, cell move.cost, cell move.change, cell move.stepNorm,
    cell move.gradientNorm, countCell 10 move.linearSteps]

/-- How a run of the minimizer ended. -/
def minimizerEnding : Minimizer.Ending Float → String
  | .unboundedStart cost =>
    let text := Decimal.shortest cost
    s!"Error: Initial error is {text}. Stopping."
  | .nothingToMove => "No variables to optimize."
  | .flat => "Converged: Gradient norm below tolerance."
  | .unbounded cost index =>
    let text := Decimal.shortest cost
    s!"Error: Error is {text} at iteration {index}. Stopping."
  | .settled => "Converged: Error change and step norm below tolerance."
  | .exhausted => "Reached max iterations."

/-- The report of a run of the minimizer. -/
def ofOutcome (settings : Minimizer.Settings Float) (outcome : Minimizer.Outcome Float) :
    List String :=
  if settings.verbose then
    heading "Starting Gauss-Newton Optimization"
        (header [("Iter", 4), ("Error", 12), ("Error Delta", 12), ("Step Norm", 12),
          ("Grad Norm", 12), ("CGLS Iters", 10)])
      ++ outcome.trace.map moveRow ++ [minimizerEnding outcome.ending]
  else []

/-! ## Cells -/

/-- A text without blanks at its ends. -/
def strip (cs : List Char) : List Char :=
  let kept := (cs.dropWhile (· == ' ')).reverse
  (kept.dropWhile (· == ' ')).reverse

/-- Whether the exponent part of a number makes it less than `10 ^ -9`. -/
def tinyExponent : List Char → Bool
  | '-' :: digits => digits.all Char.isDigit && 10 ≤ ((String.ofList digits).toNat?).getD 0
  | _ => false

/-- Whether an unsigned number in scientific notation with six digits behind the point is less than
`10 ^ -9`. -/
def isTiny (cs : List Char) : Bool :=
  match cs with
  | lead :: '.' :: rest =>
    let places := rest.takeWhile Char.isDigit
    match rest.dropWhile Char.isDigit with
    | 'e' :: exponent =>
      lead.isDigit && places.length == 6 &&
        ((lead :: places).all (· == '0') || tinyExponent exponent)
    | _ => false
  | _ => false

/-- A cell with a number next to zero replaced by a mark. -/
def markTiny (cs : List Char) : String :=
  let unsigned := match cs with
    | '-' :: rest => rest
    | _ => cs
  if isTiny unsigned then "~0" else String.ofList cs

/-- The cells of a line, stripped of blanks, numbers next to zero marked. -/
def cells (line : String) : List String :=
  (line.splitOn "|").map fun part => markTiny (strip part.toList)

end LeastSquares.Progress
