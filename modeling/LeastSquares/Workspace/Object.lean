import LeastSquares.Factor.Linearization
import LeastSquares.Workspace.Value

/-!
# Objects of a workspace

A workspace holds objects under names. An object keeps its identity: two names may stand for one
object, and an object that changes in place changes under all of its names. An object is identified
by its place in the workspace, and what it is now is an `Item`: a value, or a composite that refers
to other objects by their places. An assignment thus remembers which objects its keys, its variables
and their spans are, and reading a variable gives the object that was stored. It also remembers
where the next span begins (`Ledger`).

A computation on a workspace is a `Session`. What it changed stays changed when it is refused.
-/

namespace LeastSquares

/-- The objects that an assignment keeps for a variable. -/
structure Slot where
  /-- The key. -/
  key : Nat
  /-- The variable. -/
  point : Nat
  /-- Its span in the joint tangent space. -/
  span : Nat

/-- What an assignment keeps beside its variables. -/
structure Ledger where
  /-- The objects of each variable, in the order of insertion. -/
  slots : List Slot
  /-- The offset behind all spans: the dimension of the joint tangent space. -/
  dimension : Nat

namespace Ledger

/-- The ledger of an assignment without variables. -/
def empty : Ledger := ⟨[], 0⟩

/-- The ledger with a slot for a variable of the given dimension. -/
def insert (ledger : Ledger) (slot : Slot) (dimension : Nat) : Ledger :=
  ⟨ledger.slots ++ [slot], ledger.dimension + dimension⟩

/-- The ledger with another object for the variable under a key; the keys are given in order. -/
def repoint (ledger : Ledger) (keys : List Int) (key : Int) (point : Nat) : Ledger :=
  { ledger with slots :=
      List.zipWith (fun k slot => if k = key then { slot with point } else slot) keys ledger.slots }

end Ledger

/-- What a factor evaluates. -/
inductive Measure where
  /-- A residual of the variables, and why it is refused at an object that is no assignment. -/
  | residual (r : Residual Float) (apart : Error)
  /-- An affine function of the variables, by the objects that are its matrices and its offset. -/
  | affine (matrices : List Nat) (offset : Nat)
  /-- An object that is the residual whatever the variables. -/
  | constant (object : Nat)
  /-- A cost, and the objects that are the linear model, whatever the variables. -/
  | model (cost : Float) (matrix bias : Nat)

/-- What an object is. -/
inductive Item where
  | plain (v : Value)
  | assignment (s : Assignment Float) (ledger : Ledger)
  | factor (owner name : String) (keys : List Int) (measure : Measure)
  | graph (factors : List Nat)
  | list (elements : List Nat)
  | tuple (elements : List Nat)
  /-- Objects under the names of fields. -/
  | record (fields : List (String × Nat))

/-- The name of the type of an object. -/
def Item.typeName : Item → String
  | plain v => v.typeName
  | assignment _ _ => "Values"
  | factor owner _ _ _ => owner
  | graph _ => "NonlinearFactorGraph"
  | list _ => "list"
  | tuple _ => "tuple"
  | record _ => "dict"

/-- What an assignment keeps beside its variables. -/
def Item.ledger : Item → Ledger
  | assignment _ ledger => ledger
  | _ => .empty

/-- Objects with the names given to them. -/
structure Workspace where
  /-- The objects; each is identified by its place. -/
  objects : Array Item
  /-- The names, the latest first. -/
  names : List (String × Nat)

/-- The workspace without objects. -/
def Workspace.empty : Workspace := ⟨#[], []⟩

/-- A computation on a workspace. What it changed stays changed when it is refused. -/
abbrev Session := ExceptT Error (StateM Workspace)

namespace Session

/-- The result of a checked operation. -/
def lift {α : Type} (result : Except Error α) : Session α := ExceptT.mk (pure result)

/-! ## Objects and names -/

/-- A new object. -/
def allocate (item : Item) : Session Nat := do
  let w ← get
  set { w with objects := w.objects.push item }
  return w.objects.size

/-- A new object that is a value. -/
def fresh (v : Value) : Session Nat := allocate (.plain v)

/-- The value of a checked operation as a new object. -/
def checked (v : Except Error Value) : Session Nat := do
  fresh (← lift v)

/-- A new list of new objects. -/
def freshList (values : List Value) : Session Nat := do
  allocate (.list (← values.mapM fresh))

/-- A new list of new texts. -/
def freshTexts (texts : List String) : Session Nat := freshList (texts.map .text)

/-- Gives a name to an object. -/
def bind (name : String) (object : Nat) : Session Unit :=
  modify fun w => { w with names := (name, object) :: w.names }

/-- Changes an object in place. -/
def replace (object : Nat) (item : Item) : Session Unit :=
  modify fun w => { w with objects := w.objects.setIfInBounds object item }

/-- The object of a name. -/
def resolve (name : String) : Session Nat := do
  let w ← get
  match w.names.lookup name with
  | some object => return object
  | none => throw .noAttribute

/-- An object as it is now. -/
def read (object : Nat) : Session Item := do
  let w ← get
  return (w.objects[object]?).getD (.plain .nothing)

/-- What a name stands for. -/
def item (name : String) : Session Item := do
  read (← resolve name)

/-- A bound on the depth to which objects refer to each other. -/
def depth : Session Nat := do
  return (← get).objects.size + 1

/-! ## Objects of one type -/

/-- The block vector of a name. -/
def vector (name : String) : Session (BlockVector Float) := do
  match ← item name with
  | .plain (.vector v) => return v
  | _ => throw .noAttribute

/-- The block matrix of a name, refused by the given cause where it is none. -/
def matrixOr (cause : Error) (name : String) : Session (BlockMatrix Float) := do
  match ← item name with
  | .plain (.matrix A) => return A
  | _ => throw cause

/-- The block matrix of a name. -/
def matrix (name : String) : Session (BlockMatrix Float) := matrixOr .noAttribute name

/-- The assignment of a name, with what it keeps beside its variables. -/
def assignment (name : String) : Session (Assignment Float × Ledger) := do
  match ← item name with
  | .assignment s ledger => return (s, ledger)
  | _ => throw .noAttribute

/-! ## Parts -/

/-- The objects that an object consists of, in order: elements, positions, characters, the parts
along the first axis, keys, names of fields, or factors. -/
def parts (object : Nat) : Session (List Nat) := do
  match ← read object with
  | .list elements | .tuple elements => return elements
  | .graph factors => return factors
  | .assignment _ ledger => return ledger.slots.map (·.key)
  | .record fields => fields.mapM fun field => fresh (.text field.1)
  | .plain (.span s) => s.positions.mapM fun i => fresh (.whole i)
  | .plain (.text s) => s.toList.mapM fun c => fresh (.text (String.singleton c))
  | .plain (.tensor t) => do
    let slices ← lift t.slices
    slices.mapM fun u => fresh (.tensor u)
  | _ => throw .notSupported

end Session

end LeastSquares
