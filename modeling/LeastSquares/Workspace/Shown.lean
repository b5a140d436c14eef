import LeastSquares.Residual.Algebra
import LeastSquares.Workspace.Machine
import LeastSquares.Workspace.Object

/-!
# What objects show and stand for

An object is shown by its contents: `Session.view` follows the references of an object and gives a
`Shown`, which has no identity any more. A graph shows the keys of its elements, so a graph that was
given anything but factors and graphs cannot be shown.

A factor is evaluated by way of the factor that it stands for (`Session.factorAt`), and a graph that
is an element of a graph stands for a factor, too. There the objects that a factor refers to are
read as they are now, and an object that is no tensor or no linear model is refused only when the
factor is evaluated. So is an object that takes the place of an assignment: a factor that does not
depend on variables has a cost there.
-/

namespace LeastSquares

/-- The contents of an object. -/
inductive Shown where
  | plain (v : Value)
  | assignment (s : Assignment Float) (dimension : Nat)
  | factor (name : String) (keys : List Int)
  | graph (elements : List Shown) (keys : List Int)
  | list (elements : List Shown)
  | record (fields : List (String × Shown))

/-- The keys that an element of a graph refers to. -/
def Shown.keys : Shown → Except Error (List Int)
  | factor _ keys | graph _ keys => .ok keys
  | assignment _ _ | record _ => .error .notSupported
  | _ => .error .noAttribute

/-- A factor that cannot be evaluated. -/
def Factor.refused {α : Type} (name : String) (keys : List Int) (cost model : Error) :
    Factor α where
  name := name
  keys := keys
  cost _ := .error cost
  linearize _ := .error model

/-- The factor that an element of a graph stands for; one that stands for none is refused when the
graph is evaluated. -/
def Factor.orRefused {α : Type} (f? : Option (Factor α)) : Factor α :=
  f?.getD (.refused "" [] .noAttribute .noAttribute)

/-- A residual that is no tensor. -/
def Residual.missing {α : Type} : Residual α := ⟨fun _ => .error .noAttribute⟩

namespace Session

/-! ## Contents -/

/-- The contents of an object whose references are followed to the given depth. -/
def viewTo : Nat → Nat → Session Shown
  | 0, _ => throw .endless
  | depth + 1, object => do
    match ← read object with
    | .plain v => return .plain v
    | .assignment s ledger => return .assignment s ledger.dimension
    | .factor _ name keys _ => return .factor name keys
    | .list elements | .tuple elements => return .list (← elements.mapM (viewTo depth))
    | .record fields => return .record (← fields.mapM fun (name, object) => do
        return (name, ← viewTo depth object))
    | .graph elements => do
      let elements ← elements.mapM (viewTo depth)
      let keys ← lift (elements.mapM Shown.keys)
      return .graph elements keys.flatten.eraseDups

/-- The contents of an object. -/
def view (object : Nat) : Session Shown := do
  viewTo (← depth) object

/-! ## Factors -/

/-- The factor with a constant residual, which is an object. -/
def constantFactor (name : String) (keys : List Int) (object : Nat) : Session (Factor Float) := do
  let r := match ← read object with
    | .plain (.tensor t) => Residual.constant t
    | _ => .missing
  return ResidualFactor.toFactor ⟨name, keys, r⟩

/-- The factor with a given linear model, whose bias must fit the machine. -/
def modelFactor (name : String) (keys : List Int) (cost : Float) (matrix bias : Nat) :
    Session (Factor Float) := do
  let model : Except Error (LinearModel Float) :=
    match ← read matrix, ← read bias with
    | .plain (.matrix A), .plain (.vector b) =>
      (Machine.checkDense b b.dimension).map fun _ => ⟨A, b⟩
    | _, _ => .error .noAttribute
  return ⟨name, keys, fun _ => .ok cost, fun _ => model⟩

/-- The tensors that items are; a number is one without axes. -/
def tensors (items : List Item) : Option (List (Tensor Float)) :=
  items.mapM fun
    | .plain v => v.tensor?
    | _ => none

/-- The residual of an affine function, as its objects are now. Operands that are no tensors are
refused when it is evaluated. -/
def affine (keys : List Int) (matrices : List Nat) (offset : Nat) : Session (Residual Float) := do
  match tensors (← matrices.mapM read), tensors [← read offset] with
  | some matrices, some [offset] => return .affine offset (keys.zip matrices)
  | _, _ => return .missing

/-- The factor of a residual at an assignment or, where `apart` is set, at another object: there the
variables cannot be looked up, for the given cause. -/
def residualFactor (apart : Bool) (name : String) (keys : List Int) (r : Residual Float)
    (cause : Error) : Factor Float :=
  if apart then .refused name keys cause .notSupported
  else
    let f : ResidualFactor Float := ⟨name, keys, r⟩
    { f.toFactor with linearize := Machine.linearize f }

/-- The factor that measures at an assignment or, where `apart` is set, at another object. -/
def measuring (apart : Bool) (name : String) (keys : List Int) :
    Measure → Session (Factor Float)
  | .residual r cause => return residualFactor apart name keys r cause
  | .affine matrices offset => do
    return residualFactor apart name keys (← affine keys matrices offset) .notSupported
  | .constant object => do
    let f ← constantFactor name keys object
    if apart then return { f with linearize := fun _ => .error .notSupported }
    else return f
  | .model cost matrix bias => modelFactor name keys cost matrix bias

/-- The factor that an object stands for, whose references are followed to the given depth. -/
def factorTo (apart : Bool) : Nat → Nat → Session (Option (Factor Float))
  | 0, _ => throw .endless
  | depth + 1, object => do
    match ← read object with
    | .factor _ name keys measure => return some (← measuring apart name keys measure)
    | .graph elements => do
      let factors ← elements.mapM (factorTo apart depth)
      return some (Graph.toFactor "" ⟨factors.map .orRefused⟩)
    | _ => return none

/-- The assignment at which an object is evaluated, and whether it only stands in for another
object. -/
def standpoint : Item → Assignment Float × Bool
  | .assignment s _ => (s, false)
  | _ => (.empty, true)

/-- The factor that an object stands for at another object, as the objects it refers to are now, and
the assignment to evaluate it at. -/
def factorAt (store : Item) (object : Nat) : Session (Factor Float × Assignment Float) := do
  let (s, apart) := standpoint store
  match ← factorTo apart (← depth) object with
  | some f => return (f, s)
  | none => throw .noAttribute

end Session

end LeastSquares
