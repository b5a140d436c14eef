import LeastSquares.Workspace.Command
import LeastSquares.Workspace.Object

/-!
# Reading operands

A command names its operands or writes them down. A `Term` is read as an object (`Session.term`).
A `Source` is read as an object (`Session.object`), as an item (`Session.source`), of which an
operation takes the tensor or refuses it for its own reason, or as numbers (`Session.numbers`):
those of a number, of a tensor, of a span, of nested lists, or of an assignment by its keys.
-/

namespace LeastSquares

/-- The tensor that an object is. -/
def Item.tensor? : Item → Option (Tensor Float)
  | plain (.tensor t) => some t
  | _ => none

/-- The tensor that an object is, refused by the given cause where it is none. -/
def Item.tensor (cause : Error) (item : Item) : Except Error (Tensor Float) :=
  match item.tensor? with
  | some t => .ok t
  | none => .error cause

/-- The operand that an object is. -/
def Item.operand : Item → Except Error (Operand Float)
  | plain (.tensor t) => .ok (.dense t)
  | plain (.vector v) => .ok (.sparse v)
  | _ => .error .noAttribute

/-- The number that an element of a list is: a number, or a tensor of one entry. -/
def Value.entry : Value → Except Error Float
  | .tensor t =>
    match t.data with
    | [x] => .ok x
    | _ => .error .notOneNumber
  | v =>
    match v.real? with
    | some x => .ok x
    | none => .error .notSupported

/-- The positions of a span as a literal. -/
def Span.literal (s : Span) : Literal Float :=
  .list (s.positions.map fun i => .number (Value.nearest i))

namespace Session

/-- The object that a term denotes. -/
def term : Term → Session Nat
  | .name name => resolve name
  | .number x => fresh (.real x)

/-- The object that a source denotes. -/
def object : Source → Session Nat
  | .literal data => do fresh (.tensor (← lift data.toTensor))
  | .name name => resolve name

/-- What a source denotes. -/
def source : Source → Session Item
  | .literal data => do return .plain (.tensor (← lift data.toTensor))
  | .name name => item name

/-- The tensor that a source denotes, refused by the given cause where it denotes none. -/
def tensor (cause : Error) (s : Source) : Session (Tensor Float) := do
  lift ((← source s).tensor cause)

/-- The operand that a source denotes. -/
def operand (s : Source) : Session (Operand Float) := do
  lift (← source s).operand

/-- The numbers in nested lists, as a literal. Lists are followed to the given depth. -/
def literalTo : Nat → Nat → Session (Literal Float)
  | 0, _ => throw .tooManyAxes
  | depth + 1, object => do
    match ← read object with
    | .list elements | .tuple elements => return .list (← elements.mapM (literalTo depth))
    | .plain (.span s) => return s.literal
    | .plain v => return .number (← lift v.entry)
    | _ => throw .notSupported

/-- The keys of an assignment as numbers. An assignment is taken for a list when it holds the key 0
or nothing at all. -/
def keyNumbers (s : Assignment Float) : Except Error (List Float) :=
  if s.size = 0 ∨ s.contains 0 then .ok (s.keys.map Value.nearest) else .error .ragged

/-- The numbers that an object holds, in a row. -/
def numbersAt (object : Nat) : Session (List Float) := do
  match ← read object with
  | .plain (.tensor t) => return t.data
  | .assignment s _ => lift (keyNumbers s)
  | _ => do
    let data ← literalTo (← depth) object
    lift data.toList

/-- The numbers that a source denotes, in a row. -/
def numbers (s : Source) : Session (List Float) := do
  numbersAt (← object s)

end Session

end LeastSquares
