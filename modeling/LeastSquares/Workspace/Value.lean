import LeastSquares.Description
import LeastSquares.Minimizer
import LeastSquares.Quoted
import LeastSquares.Tensor.Text

/-!
# Values

The values that a workspace computes with: truth values, numbers, text, spans, tensors, block
vectors and matrices, variables and solvers. A value refers to no other object of a workspace.

The operators act on any two values (`Value.add` and its companions) and are refused where they have
no meaning. Whole numbers stay whole, a whole number beside another number is read as one of its
kind, and a number beside a tensor acts on every entry (`Value.arithmetic`). Truth values count as
the numbers 1 and 0.
-/

namespace LeastSquares

/-- A value that refers to no other object. -/
inductive Value where
  | nothing
  | truth (b : Bool)
  | whole (n : Int)
  | real (x : Float)
  | text (s : String)
  | span (s : Span)
  | tensor (t : Tensor Float)
  | vector (v : BlockVector Float)
  | matrix (A : BlockMatrix Float)
  | point (x : Variable Float)
  | solver (s : LinearSolver Float)
  | settings (s : Minimizer.Settings Float)

namespace Value

/-- The name of the type of a value. -/
def typeName : Value → String
  | nothing => "NoneType"
  | truth _ => "bool"
  | whole _ => "int"
  | real _ => "float"
  | text _ => "str"
  | span _ => "range"
  | tensor _ => "Tensor"
  | vector _ => "BlockSparseVector"
  | matrix _ => "BlockSparseMatrix"
  | point x => x.kind.name
  | solver _ => "CGLS"
  | settings _ => "SolverOptions"

/-! ## Numbers -/

/-- The floating-point number nearest to a whole number. -/
def nearest (n : Int) : Float :=
  let x := Float.ofScientific n.natAbs false 0
  if n < 0 then -x else x

/-- The whole number that a value is. -/
def whole? : Value → Option Int
  | truth b => some (if b then 1 else 0)
  | whole n => some n
  | _ => none

/-- The number that a value is. -/
def real? : Value → Option Float
  | real x => some x
  | v => v.whole?.map nearest

/-- The tensor that a value is; a number is one without axes. -/
def tensor? : Value → Option (Tensor Float)
  | tensor t => some t
  | v => v.real?.map Tensor.scalar

/-! ## Arithmetic -/

/-- Combines two whole numbers, two numbers, or the entries of tensors. -/
def arithmetic (onWhole : Int → Int → Int) (onReal : Float → Float → Float) (a b : Value) :
    Except Error Value :=
  match a.whole?, b.whole? with
  | some m, some n => .ok (whole (onWhole m n))
  | _, _ =>
    match a.real?, b.real? with
    | some x, some y => .ok (real (onReal x y))
    | _, _ =>
      match a.tensor?, b.tensor? with
      | some s, some t => (s.combine onReal t).map tensor
      | _, _ => .error .notSupported

/-- Refuses to combine a variable with what is none: vector kinds name the two types. -/
def refusal (x : Variable Float) (other : String) : Error :=
  match x.kind with
  | .vector name _ => .cannotCombine name other
  | .manifold _ _ => .notSupported

/-- The sum of two values. -/
def add : Value → Value → Except Error Value
  | vector v, vector w => .ok (vector (v + w))
  | matrix A, matrix B => .ok (matrix (A + B))
  | point x, point y => (x.add y).map point
  | point x, other => .error (refusal x other.typeName)
  | text s, text t => .ok (text (s ++ t))
  | a, b => arithmetic (· + ·) (· + ·) a b

/-- The difference of two values. -/
def sub : Value → Value → Except Error Value
  | vector v, vector w => .ok (vector (v - w))
  | point x, point y => (x.sub y).map point
  | point x, other => .error (refusal x other.typeName)
  | tensor _, truth _ | truth _, tensor _ => .error .truthDifference
  | a, b => arithmetic (· - ·) (· - ·) a b

/-- A list repeated. -/
def repeated {α : Type} (n : Int) (xs : List α) : List α := (List.replicate n.toNat xs).flatten

/-- A block vector multiplied by numbers, which must leave it a vector. -/
def scaleVector (v : BlockVector Float) (numbers : Tensor Float) : Except Error Value := do
  let product ← (Tensor.ofList v.scalars).combine (· * ·) numbers
  match product.shape with
  | [_] => .ok (vector ⟨product.data, v.blocks⟩)
  | _ => .error .notSupported

/-- A block vector multiplied by a value: only by numbers. Beside a variable the scalars are
multiplied with the coordinates, which make no block vector. -/
def vectorTimes (v : BlockVector Float) : Value → Except Error Value
  | point x => do
    let _ ← x.scale (.ofList v.scalars)
    .error .noAttribute
  | other =>
    match other.tensor? with
    | some numbers => scaleVector v numbers
    | none => .error .notSupported

/-- A variable multiplied by a value: only by numbers. Beside a variable or a block vector the
coordinates are multiplied with those of the other, which make no coordinates. -/
def pointTimes (x : Variable Float) (other : Value) : Except Error Value :=
  match x.kind, other with
  | .manifold _ _, _ => .error .notSupported
  | _, point y => do
    let _ ← y.scale (.ofList x.coordinates)
    .error .notSupported
  | _, vector v => do
    let _ ← scaleVector v (.ofList x.coordinates)
    .error .notSupported
  | _, other =>
    match other.tensor? with
    | some numbers => (x.scale numbers).map point
    | none => .error .notSupported

/-- The product of two values. Text is repeated, and block vectors and variables are multiplied by
numbers on either side. -/
def mul (a b : Value) : Except Error Value :=
  match a, b with
  | vector _, vector _ => .error .notSupported
  | vector v, b => vectorTimes v b
  | point x, b => pointTimes x b
  | a, vector v => vectorTimes v a
  | a, point x => pointTimes x a
  | text s, b =>
    match b.whole? with
    | some n => .ok (text (String.ofList (repeated n s.toList)))
    | none => .error .notSupported
  | a, text s =>
    match a.whole? with
    | some n => .ok (text (String.ofList (repeated n s.toList)))
    | none => .error .notSupported
  | a, b => arithmetic (· * ·) (· * ·) a b

/-- The opposite of a value. -/
def neg : Value → Except Error Value
  | vector v => .ok (vector (-v))
  | point x => x.neg.map point
  | tensor t => .ok (tensor (t.map (-·)))
  | real x => .ok (real (-x))
  | v =>
    match v.whole? with
    | some n => .ok (whole (-n))
    | none => .error .notSupported

/-! ## Comparison and text -/

/-- Whether two tensors have equal entries; they must have one entry when matched. -/
def sameEntry (s t : Tensor Float) : Except Error Bool := do
  let equal ← s.combine (· == ·) t
  match equal.data with
  | [b] => .ok b
  | _ => .error .noTruthValue

/-- Whether two values are equal, where their identity does not decide, as it does for points of a
manifold. A whole number equals a floating-point number that denotes it exactly. -/
def equal? : Value → Value → Except Error (Option Bool)
  | nothing, nothing => .ok (some true)
  | text s, text t => .ok (some (s == t))
  | span s, span t => .ok (some (s.alike t))
  | point x, point y =>
    match x.kind, y.kind with
    | .manifold _ _, .manifold _ _ => .ok none
    | _, _ => .ok (some (x.agrees y))
  | real x, real y => .ok (some (x == y))
  | tensor s, b =>
    match b.tensor? with
    | some t => (sameEntry s t).map some
    | none => .ok none
  | a, tensor t =>
    match a.tensor? with
    | some s => (sameEntry s t).map some
    | none => .ok none
  | real x, b => .ok (b.whole?.map (Decimal.Binary.ofFloat x).isInt)
  | a, real y => .ok (a.whole?.map (Decimal.Binary.ofFloat y).isInt)
  | a, b =>
    match a.whole?, b.whole? with
    | some m, some n => .ok (some (m == n))
    | _, _ => .ok none

/-- Whether two values are one object wherever they come from: truth values, small whole numbers
and text of at most one character. -/
def interned : Value → Value → Bool
  | nothing, nothing => true
  | truth a, truth b => a == b
  | whole m, whole n => m == n && -5 ≤ m && m ≤ 256
  | text s, text t => s == t && (s.isEmpty || (s.length == 1 && s.toList.all (·.toNat < 256)))
  | _, _ => false

/-- The number of parts of a value. -/
def length : Value → Except Error Nat
  | vector v => .ok v.scalars.length
  | span s => .ok s.length
  | text s => .ok s.length
  | tensor t =>
    match t.shape with
    | n :: _ => .ok n
    | [] => .error .notSupported
  | _ => .error .notSupported

/-- A value in one line. -/
def describe : Value → Except Error String
  | nothing => .ok "None"
  | truth b => .ok (if b then "True" else "False")
  | whole n => .ok (toString n)
  | real x => .ok (Decimal.shortest x)
  | text s => .ok (Quoted.text s)
  | span s => .ok s.text
  | vector v => .ok v.describe
  | matrix A => .ok A.describe
  | point x => .ok x.describe
  | tensor t => .ok t.describe
  | solver _ | settings _ => .error .notSupported

end Value

end LeastSquares
