import LeastSquares.Span

/-!
# Causes of refusal

Every checked operation of the library returns `Except Error`, and an error names its cause.
`Error.message?` is the wording of a cause. The causes that concern only the shapes of numeric
operands (lengths that do not fit, a negative size) have no wording.
-/

namespace LeastSquares

/-- Why an operation is refused. -/
inductive Error where
  /-- Nested literals of different lengths. -/
  | ragged
  /-- A list where a number is needed, or a number where a list is needed. -/
  | notNumeric
  /-- More axes than a tensor may have. -/
  | tooManyAxes
  /-- A tensor of several entries where a number is needed. -/
  | notOneNumber
  /-- A range whose step is zero. -/
  | zeroStep
  /-- A block that is not a contiguous range. -/
  | notContiguous (start stop step : Int)
  /-- A block with another number of scalars than it has positions. -/
  | scalarCount (block : Span) (given : Nat)
  /-- A dense length below the dimension of the vector. -/
  | tooFewEntries (dimension entries : Int)
  /-- A scalar buffer of another shape than the tiles require. -/
  | tileScalars (required : Nat) (shape : List Nat)
  /-- Rows whose blocks are not alike. -/
  | rowLayout
  /-- A dense block that is not a matrix. -/
  | notMatrix (shape : List Nat)
  /-- An operand that is not a vector of sufficient length. -/
  | operand (required : Int) (shape : List Nat)
  /-- A product longer than the system it is used in. -/
  | productLength (length size : Nat)
  /-- A variable given another number of coordinates than its kind has. -/
  | coordinateCount (kind : String) (expected given : Nat)
  /-- Two operands that are not of one kind of variable. -/
  | cannotCombine (left right : String)
  /-- An insertion under a key that is taken. -/
  | duplicateKey (key : Int)
  /-- A key that no variable is stored under. -/
  | missingKey (key : Int)
  /-- A stored variable that is not of the requested kind. -/
  | wrongKind (key : Int) (stored requested : String)
  /-- A replacement that is not of the stored kind. -/
  | wrongReplacement (key : Int) (stored given : String)
  /-- A joint tangent vector of the wrong shape. -/
  | tangentShape (dimension : Nat) (shape : List Nat)
  /-- A factor without keys. -/
  | noKeys (owner : String)
  /-- Operand lengths that neither agree nor stretch. -/
  | lengthMismatch
  /-- A dense result of negative size. -/
  | negativeSize
  /-- A collation of rows that have no blocks. -/
  | nothingToCollate
  /-- A derivative of a residual without entries. -/
  | emptyResidual
  /-- An index range with inverted bounds. -/
  | invertedSpan (block : Span)
  /-- An axis that a tensor does not have, or a place that a sequence does not have. -/
  | noAxis
  /-- A sum along an axis of a tensor that has too many axes for it. -/
  | tooManySummed
  /-- A truth value asked of a tensor that has not exactly one entry. -/
  | noTruthValue
  /-- A difference of a tensor and a truth value. -/
  | truthDifference
  /-- A structure that contains itself. -/
  | endless
  /-- A length that no machine integer holds. -/
  | lengthOverflow
  /-- A size that no machine integer holds. -/
  | sizeOverflow
  /-- A size beyond the memory of the machine. -/
  | outOfMemory
  /-- An operation that is not defined for the kinds of its operands. -/
  | notSupported
  /-- An attribute that an object does not have. -/
  | noAttribute
  /-- A setting that does not exist. -/
  | unknownSetting
deriving DecidableEq, Repr

/-- A shape in parentheses, each length followed by a comma when there is only one. -/
def shapeText : List Nat → String
  | [n] => s!"({n},)"
  | ns => "(" ++ ", ".intercalate (ns.map toString) ++ ")"

/-- A span written by its bounds. -/
def Span.text (s : Span) : String := s!"range({s.start}, {s.stop})"

namespace Error

/-- The wording of a cause, if it has one. -/
def message? : Error → Option String
  | notContiguous start stop step =>
    some s!"Blocks must be contiguous ranges, got range({start}, {stop}, {step})."
  | scalarCount block given =>
    let range := block.text
    let covered := block.length
    some s!"Block {range} covers {covered} positions but {given} scalars were given."
  | tooFewEntries dimension entries =>
    some s!"Cannot materialize a vector of dimension {dimension} into {entries} entries."
  | tileScalars required shape =>
    let given := shapeText shape
    some s!"Blocks require {required} scalars, got a tensor of shape {given}."
  | rowLayout => some "Collating rows with different block structures is not supported."
  | notMatrix shape =>
    let given := shapeText shape
    some s!"A dense block must be a 2D tensor, got shape {given}."
  | operand required shape =>
    let given := shapeText shape
    some s!"Expected a 1D tensor with at least {required} entries, got shape {given}."
  | productLength length size =>
    some s!"Product of length {length} does not fit a system of size {size}."
  | coordinateCount kind expected given =>
    some s!"{kind} expects {expected} coordinates, got {given}."
  | cannotCombine left right => some s!"Cannot combine {left} with {right}."
  | duplicateKey key => some s!"Key {key} is already present."
  | missingKey key => some (toString key)
  | wrongKind key stored requested => some s!"Key {key} holds a {stored}, not a {requested}."
  | wrongReplacement key stored given =>
    some s!"Key {key} holds a {stored}, cannot assign a {given}."
  | tangentShape dimension shape =>
    let given := shapeText shape
    some s!"Expected a tangent vector of shape ({dimension},), got {given}."
  | noKeys owner => some s!"{owner} must constrain at least one key."
  | ragged | notNumeric | tooManyAxes | notOneNumber | zeroStep | lengthMismatch | negativeSize
  | nothingToCollate | emptyResidual | invertedSpan _ | noAxis | tooManySummed | noTruthValue
  | truthDifference | endless | lengthOverflow | sizeOverflow | outOfMemory | notSupported
  | noAttribute | unknownSetting => none

end Error

end LeastSquares
