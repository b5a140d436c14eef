import LeastSquares.Literal
import LeastSquares.Minimizer
import LeastSquares.Residual.Function

/-!
# Commands of a workspace

A step of a session is a command with the names under which its result is kept: none, one name for
the result, or a name for each of the parts it consists of. A command refers to objects by name;
where a number or numeric data may stand as well, it is a `Term` or a `Source`.
-/

namespace LeastSquares

/-- A named object or a number. -/
inductive Term where
  | name (name : String)
  | number (x : Float)

/-- A named object or numeric data. -/
inductive Source where
  | name (name : String)
  | literal (data : Literal Float)

/-- The variables that can be created, by the name of their kind. -/
def Kind.named? : String → Option Kind
  | "VectorVariable" => some (.vector "VectorVariable" 0)
  | "Vector1" => some .line
  | "Vector2" => some .plane
  | "Vector3" => some .space
  | "Vector5" => some (.vector "Vector5" 5)
  | "Point2" => some (.vector "Point2" 2)
  | "Positive" => some .positive
  | _ => none

/-- A setting of a solver. -/
inductive Setting where
  | precision (x : Float)
  | maxIterations (n : Int)
  | verbose (b : Bool)
  | absoluteChange (x : Float)
  | relativeChange (x : Float)
  | stepNorm (x : Float)
  | gradientNorm (x : Float)
  | linearPrecision (x : Float)
  | linearIterations (n : Int)
  /-- A setting that no solver has. -/
  | other

/-- Linear settings with one of them changed. -/
def LinearSettings.change (s : LinearSettings Float) : Setting → Except Error (LinearSettings Float)
  | .precision x => .ok { s with precision := x }
  | .maxIterations n => .ok { s with maxIterations := n }
  | .verbose b => .ok { s with verbose := b }
  | _ => .error .unknownSetting

/-- Settings of the minimizer with one of them changed. -/
def Minimizer.Settings.change (s : Minimizer.Settings Float) :
    Setting → Except Error (Minimizer.Settings Float)
  | .maxIterations n => .ok { s with maxIterations := n }
  | .verbose b => .ok { s with verbose := b }
  | .absoluteChange x => .ok { s with absoluteChange := x }
  | .relativeChange x => .ok { s with relativeChange := x }
  | .stepNorm x => .ok { s with stepNorm := x }
  | .gradientNorm x => .ok { s with gradientNorm := x }
  | .linearPrecision x => .ok { s with linear := { s.linear with precision := x } }
  | .linearIterations n => .ok { s with linear := { s.linear with maxIterations := n } }
  | .precision _ | .other => .error .unknownSetting

/-- What a new factor measures. -/
inductive FactorShape where
  /-- One variable against a named target. -/
  | prior (target : String) (weight : Float)
  /-- The displacement between two variables. -/
  | between (difference : Source) (weight : Float)
  /-- A function of a number. -/
  | unary (f : Unary) (target : Float)
  /-- The distance of two points. -/
  | distance (measured : Float)
  /-- The products of two coordinates. -/
  | products
  /-- The place in a curved valley. -/
  | valley
  /-- The inner product of two variables. -/
  | dot (target : Float)
  /-- The outer product of two variables. -/
  | outer
  /-- An affine function of several variables. -/
  | affine (matrices : List Source) (offset : Source)
  /-- A tensor. -/
  | constant (residual : Source)
  /-- A cost and a linear model that are given. -/
  | fixed (cost : Float) (matrix bias : String)

/-- How the report of a run is kept with its results. -/
inductive Reporting where
  /-- Only whether there is one. -/
  | mention
  /-- By its lines. -/
  | lines
  /-- By the cells of its lines. -/
  | cells

/-- What a step does. -/
inductive Command where
  | tensor (data : Source)
  | flatten (data : Source)
  | show (a : String)
  | same (a b : Term)
  | equal (a b : Term)
  | length (a : Term)
  | describe (a : Term)
  | add (a b : Term)
  | sub (a b : Term)
  | mul (a b : Term)
  | neg (a : Term)
  | addTo (a : String) (b : Term)
  | subFrom (a : String) (b : Term)
  | vector (data : Source) (block? : Option (Int × Int × Int))
  | zeroVector
  | raise (a : String) (x : Term)
  | lower (a : String) (x : Term)
  | scale (a : String) (x : Term)
  | dense (a : String) (entries? : Option Int)
  | normSq (a : String)
  | matrix (scalars : Source) (ranges : List ((Int × Int × Int) × Int × Int × Int))
  | zeroMatrix
  | collate (rows : List String)
  | ofDense (block : Source) (row column : Int)
  | shiftRows (a : String) (offset : Int)
  | apply (a : String) (x : Source)
  | adjoint (a : String) (y : Source)
  | coordinates (a : String)
  | tileSizes (a : String)
  | sameTiles (a b : String)
  | point (kind : Kind) (data : Source)
  | origin (kind : Kind)
  | dimension (kind : Kind)
  | basis (kind : Kind)
  | move (a : String) (tangent : Source)
  | displacement (a b : String)
  | norm (a : String)
  | sum (a : String)
  | assignment
  | insert (a : String) (key : Int) (value : String)
  | get (a : String) (key : Int) (kind : Kind)
  | element (a : String) (key : Int) (kind? : Option Kind)
  | set (a : String) (key : Int) (value : String) (kind? : Option Kind)
  | setElement (a : String) (key : Int) (value : String) (kind? : Option Kind)
  | contains (a : String) (key : Int)
  | tangentSpan (a : String) (key : Int)
  | keys (a : String)
  | embed (a : String) (key : Int) (sensitivity : Source)
  | copy (a : String)
  | factor (shape : FactorShape) (keys : List Int) (name? : Option String)
  | graph (factors : List String)
  | extend (a factor : String)
  | cost (a assignment : String)
  | residual (a assignment : String)
  | linearize (a assignment : String)
  | solver (settings : List Setting)
  | settings (settings : List Setting)
  | solve (solver matrix : String) (bias : Source) (x : String) (reporting : Reporting)
  | minimize (graph assignment : String) (settings? result? : Option String)
      (reporting : Reporting)

/-- The names that a result is kept under. -/
inductive Names where
  | none
  /-- A name for the result. -/
  | one (name : String)
  /-- Names for the parts of the result, in order. -/
  | parts (names : List String)

/-- A command with the names that its result is kept under. -/
structure Step where
  /-- What is done. -/
  command : Command
  /-- The names of the result. -/
  names : Names

end LeastSquares
