import LeastSquares.Workspace.Shown
import LeastSquares.Workspace.Source

/-!
# Operators on objects

The operators on values extend to all objects: lists and tuples are joined and repeated, and
everything else is refused. An operator gives a new object, but a tensor, a list and a graph are
added to in place (`Session.addTo`), so what is added shows under all names of the object.

Objects are equal when their values are, lists and tuples when their elements are, records when
their fields are, and all other objects only to themselves (`Session.equal`). The text of an object
is made of the texts of its elements (`Session.describe`).
-/

namespace LeastSquares

namespace Item

/-- The sum of two objects. -/
def add : Item → Item → Except Error Item
  | plain v, plain w => (v.add w).map plain
  | plain (.point x), other => .error (Value.refusal x other.typeName)
  | list xs, list ys => .ok (list (xs ++ ys))
  | tuple xs, tuple ys => .ok (tuple (xs ++ ys))
  | _, _ => .error .notSupported

/-- The difference of two objects. -/
def sub : Item → Item → Except Error Item
  | plain v, plain w => (v.sub w).map plain
  | plain (.point x), other => .error (Value.refusal x other.typeName)
  | _, _ => .error .notSupported

/-- Elements repeated as often as a value says. -/
def times (xs : List Nat) (v : Value) : Except Error (List Nat) :=
  match v.whole? with
  | some n => .ok (Value.repeated n xs)
  | none => .error .notSupported

/-- The product of two objects. -/
def mul : Item → Item → Except Error Item
  | plain v, plain w => (v.mul w).map plain
  | list xs, plain v | plain v, list xs => (times xs v).map list
  | tuple xs, plain v | plain v, tuple xs => (times xs v).map tuple
  | _, _ => .error .notSupported

/-- The opposite of an object. -/
def neg : Item → Except Error Item
  | plain v => v.neg.map plain
  | _ => .error .notSupported

/-- The number that an object is. -/
def real? : Item → Option Float
  | plain v => v.real?
  | _ => none

/-- The number of parts of an object. -/
def length : Item → Except Error Nat
  | plain v => v.length
  | assignment s _ => .ok s.size
  | graph factors => .ok factors.length
  | list elements | tuple elements => .ok elements.length
  | record fields => .ok fields.length
  | factor _ _ _ _ => .error .notSupported

/-- Whether an object counts as true: a number that is not zero, and what has parts unless it has
none. A tensor counts as its only entry. -/
def truth : Item → Except Error Bool
  | plain .nothing => .ok false
  | plain (.tensor t) =>
    match t.data with
    | [x] => .ok (x != 0)
    | _ => .error .noTruthValue
  | object =>
    match object.real?, object.length with
    | some x, _ => .ok (x != 0)
    | none, .ok n => .ok (n != 0)
    | none, .error _ => .ok true

end Item

namespace Session

/-- A new object computed from two objects. -/
def combine (f : Item → Item → Except Error Item) (a b : Term) : Session Nat := do
  let x ← term a
  let y ← term b
  allocate (← lift (f (← read x) (← read y)))

/-- Changes a tensor in place to what an operation makes of it and a number or a tensor. The shape
must stay. -/
def updateTensor (f : Float → Float → Float) (object : Nat) (t : Tensor Float) (v : Value) :
    Session Unit := do
  match v.tensor? with
  | some u => do
    let result ← lift (t.combine f u)
    if result.shape = t.shape then replace object (.plain (.tensor result))
    else throw .lengthMismatch
  | none => throw .notSupported

/-- Adds to the object of a name, which is then the name of the result. Tensors, lists and graphs
change in place. -/
def addTo (a : String) (b : Term) : Session Nat := do
  let x ← resolve a
  let y ← term b
  match ← read x, ← read y with
  | .plain (.tensor t), .plain v => do
    updateTensor (· + ·) x t v
    return x
  | .list xs, _ => do
    replace x (.list (xs ++ (← parts y)))
    return x
  | .graph factors, _ => do
    replace x (.graph (factors ++ [y]))
    return x
  | u, v => do
    let result ← allocate (← lift (u.add v))
    bind a result
    return result

/-- Subtracts from the object of a name, which is then the name of the result. Tensors change in
place. -/
def subFrom (a : String) (b : Term) : Session Nat := do
  let x ← resolve a
  let y ← term b
  match ← read x, ← read y with
  | .plain (.tensor t), .plain v => do
    updateTensor (· - ·) x t v
    return x
  | u, v => do
    let result ← allocate (← lift (u.sub v))
    bind a result
    return result

/-- Whether two places are of one object. -/
def same (x y : Nat) : Session Bool := do
  if x == y then return true
  match ← read x, ← read y with
  | .plain v, .plain w => return v.interned w
  | _, _ => return false

/-- Whether two elements are equal. An element equals itself. -/
def equalElements (equal : Nat → Nat → Session Bool) (pair : Nat × Nat) : Session Bool := do
  if pair.1 == pair.2 then return true
  equal pair.1 pair.2

/-- Whether a record has a field of the same name that is equal. -/
def equalField (equal : Nat → Nat → Session Bool) (fields : List (String × Nat))
    (field : String × Nat) : Session Bool := do
  match fields.lookup field.1 with
  | some object => equalElements equal (field.2, object)
  | none => return false

/-- Whether two objects are equal, where elements are followed to the given depth. -/
def equalTo : Nat → Nat → Nat → Session Bool
  | 0, _, _ => throw .endless
  | depth + 1, x, y => do
    match ← read x, ← read y with
    | .plain v, .plain w => do
      match ← lift (v.equal? w) with
      | some result => return result
      | none => return x == y
    | .list xs, .list ys | .tuple xs, .tuple ys =>
      if xs.length == ys.length then (xs.zip ys).allM (equalElements (equalTo depth))
      else return false
    | .record xs, .record ys =>
      if xs.length == ys.length then xs.allM (equalField (equalTo depth) ys)
      else return false
    | _, _ => return x == y

/-- Whether two objects are equal. -/
def equal (x y : Nat) : Session Bool := do
  equalTo (← depth) x y

/-- The texts of elements between brackets. The elements of what is inside itself are elided. -/
def enclosed (inside : Bool) (opening closing : String) (texts : Session (List String)) :
    Session String := do
  if inside then return opening ++ "..." ++ closing
  return bracketed opening closing (← texts)

/-- The text of a field of a record. -/
def fieldText (text : Nat → Session String) (field : String × Nat) : Session String := do
  return Quoted.text field.1 ++ ": " ++ (← text field.2)

/-- An object in one line, inside of other objects. References are followed to the given depth. -/
def describeTo : Nat → List Nat → Nat → Session String
  | 0, _, _ => throw .endless
  | depth + 1, within, object => do
    let inside := within.contains object
    let text := describeTo depth (object :: within)
    match ← read object with
    | .plain v => lift v.describe
    | .assignment s _ => return s.describe
    | .factor _ name keys _ => return factorText name keys
    | .graph elements => return graphText (← enclosed inside "[" "]" (elements.mapM text))
    | .list elements => enclosed inside "[" "]" (elements.mapM text)
    | .tuple [element] => enclosed inside "(" ",)" ([element].mapM text)
    | .tuple elements => enclosed inside "(" ")" (elements.mapM text)
    | .record fields => enclosed inside "\x7b" "\x7d" (fields.mapM (fieldText text))

/-- An object in one line. -/
def describe (object : Nat) : Session Nat := do
  fresh (.text (← describeTo (← depth) [] object))

end Session

end LeastSquares
