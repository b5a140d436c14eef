import LeastSquares.Residual.Measurement
import LeastSquares.Workspace.Shown
import LeastSquares.Workspace.Source

/-!
# Commands on factors and graphs

A factor is new with every command that makes one, and keeps what it measures against. What does not
depend on variables is kept as an object: a constant residual, the tensors of an affine function and
a given linear model are found again as the objects they were given as.
-/

namespace LeastSquares.Session

/-! ## New factors -/

/-- The key of a factor at a place. -/
def keyAt (keys : List Int) (i : Nat) : Session Int :=
  match keys[i]? with
  | some key => return key
  | none => throw .noAxis

/-- A new factor on at least one key. -/
def allocateFactor (owner default : String) (name? : Option String) (keys : List Int)
    (measure : Measure) : Session Nat := do
  lift (checkKeys owner keys)
  allocate (.factor owner (nameOr default name?) keys measure)

/-- A new factor whose name is by default that of its owner. -/
def named (owner : String) (name? : Option String) (keys : List Int)
    (measure : Int → Measure) : Session Nat := do
  lift (checkKeys owner keys)
  allocateFactor owner owner name? keys (measure (← keyAt keys 0))

/-- A residual of the first two keys. Where there is only one, it reads the variable under it, of a
kind if one is given, and is then refused. -/
def ofTwo (keys : List Int) (kind? : Option Kind) (r : Int → Int → Residual Float) :
    Residual Float :=
  match keys with
  | first :: second :: _ => r first second
  | [first] => ⟨fun s => s.select first kind? >>= fun _ => .error .noAxis⟩
  | [] => .missing

/-- The residual of a measurement of one variable against an object. -/
def priorTo (target : Item) (weight : Float) (key : Int) : Residual Float :=
  match target with
  | .plain (.point x) => .prior x weight key
  | other => .incomparable other.typeName key

/-- A residual that asks for variables of a kind, which only assignments answer. -/
def ofKinds (r : Residual Float) : Measure := .residual r .noAttribute

/-- A residual that looks up variables by their keys, which most other objects refuse. -/
def ofKeys (r : Residual Float) : Measure := .residual r .notSupported

/-- A new factor. -/
def newFactor (shape : FactorShape) (keys : List Int) (name? : Option String) :
    Session Nat := do
  match shape with
  | .prior target weight =>
    let key ← keyAt keys 0
    let target ← item target
    allocateFactor "PriorFactor" s!"Prior_{key}" name? [key] (ofKinds (priorTo target weight key))
  | .between difference weight =>
    let first ← keyAt keys 0
    let second ← keyAt keys 1
    let d ← numbers difference
    allocateFactor "BetweenFactor" s!"Between_{first}_{second}" name? [first, second]
      (ofKeys (.between d weight first second))
  | .unary f target =>
    named "ScalarFunctionFactor" name? keys fun key => ofKinds (.unary f target key)
  | .distance measured =>
    named "RangeFactor" name? keys fun _ =>
      ofKinds (ofTwo keys (some .plane) (.distance measured))
  | .products => named "ProductFactor" name? keys fun key => ofKinds (.products key)
  | .valley => named "RosenbrockFactor" name? keys fun key => ofKinds (.valley 10 key)
  | .dot target => named "DotFactor" name? keys fun _ => ofKeys (ofTwo keys none (.dot target))
  | .outer => named "OuterFactor" name? keys fun _ => ofKeys (ofTwo keys none .outer)
  | .affine matrices offset => do
    let matrices ← matrices.mapM object
    let offset ← object offset
    named "AffineFactor" name? keys fun _ => .affine matrices offset
  | .constant residual => do
    let residual ← object residual
    named "ConstFactor" name? keys fun _ => .constant residual
  | .fixed cost matrix bias => do
    let matrix ← resolve matrix
    let bias ← resolve bias
    named "RawFactor" name? keys fun _ => .model cost matrix bias

/-! ## Graphs -/

/-- A new graph of named objects. -/
def newGraph (factors : List String) : Session Nat := do
  allocate (.graph (← factors.mapM resolve))

/-- Adds an object behind the others of a graph, in place. -/
def extend (a factor : String) : Session Nat := do
  let g ← resolve a
  match ← read g with
  | .graph factors => do
    replace g (.graph (factors ++ [← resolve factor]))
    return g
  | _ => throw .noAttribute

/-! ## Evaluation -/

/-- The cost of a factor or a graph. -/
def cost (a store : String) : Session Nat := do
  let (f, s) ← factorAt (← item store) (← resolve a)
  checked ((f.cost s).map .real)

/-- The residual of a factor that has one. -/
def residual (a store : String) : Session Nat := do
  let store ← item store
  match ← item a with
  | .factor _ _ _ (.residual r cause) => evaluate store r cause
  | .factor _ _ keys (.affine matrices offset) => do
    evaluate store (← affine keys matrices offset) .notSupported
  | .factor _ _ _ (.constant object) => return object
  | _ => throw .noAttribute
where
  /-- The residual at an assignment, refused by the given cause at another object. -/
  evaluate (store : Item) (r : Residual Float) (cause : Error) : Session Nat := do
    match store with
    | .assignment s _ => checked ((r.value s).map .tensor)
    | _ => throw cause

/-- The matrix and the bias of a linear model: the given objects, or new ones. -/
def modelObjects (a store : String) : Session (Nat × Nat) := do
  let object ← resolve a
  let store ← item store
  match ← read object with
  | .factor _ _ _ (.model _ matrix bias) => return (matrix, bias)
  | _ => do
    let (f, s) ← factorAt store object
    let model ← lift (f.linearize s)
    return (← fresh (.matrix model.matrix), ← fresh (.vector model.bias))

/-- What has scalars, with its negative zeros replaced by zero. -/
def withoutNegativeZeros : Item → Except Error Item
  | .plain (.matrix A) => .ok (.plain (.matrix (A.map (· + 0))))
  | .plain (.vector v) => .ok (.plain (.vector (v.map (· + 0))))
  | _ => .error .noAttribute

/-- A linear model. Its matrix loses its negative zeros in place, also a given one. -/
def linearModel (a store : String) : Session Nat := do
  let (matrix, bias) ← modelObjects a store
  replace matrix (← lift (withoutNegativeZeros (← read matrix)))
  allocate (.tuple [matrix, bias])

end LeastSquares.Session
