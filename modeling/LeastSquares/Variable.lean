import LeastSquares.Elementary
import LeastSquares.Tensor

/-!
# Variables

A variable is a point that an optimizer may move. Its kind fixes the dimension of its tangent
space, the motion along a tangent vector (`Variable.move`) and the tangent vector that leads to
another point (`Variable.displacement`).

Points of a vector kind move by addition. Vector kinds are told apart by name, and only points of
one kind combine. Points of another manifold move and are compared as that manifold says.
-/

namespace LeastSquares

/-- What a variable is a point of. -/
inductive Kind where
  /-- A vector space, named, of the given dimension. -/
  | vector (name : String) (dimension : Nat)
  /-- Another manifold, named, whose tangent space is of the given dimension. -/
  | manifold (name : String) (dimension : Nat)
deriving DecidableEq, Repr

namespace Kind

/-- The dimension of the tangent space. -/
def dimension : Kind → Nat
  | vector _ n => n
  | manifold _ n => n

/-- The name of the kind. -/
def name : Kind → String
  | vector name _ => name
  | manifold name _ => name

/-- The real line. -/
def line : Kind := vector "Vector1" 1

/-- The plane. -/
def plane : Kind := vector "Vector2" 2

/-- The three-dimensional space. -/
def space : Kind := vector "Vector3" 3

/-- The positive numbers. -/
def positive : Kind := manifold "Positive" 1

/-- Whether a point of the kind may have `n` coordinates. -/
def Admits : Kind → Nat → Prop
  | vector _ dimension, n => n = dimension
  | manifold _ _, _ => True

instance (k : Kind) (n : Nat) : Decidable (k.Admits n) :=
  match k with
  | vector _ dimension => inferInstanceAs (Decidable (n = dimension))
  | manifold _ _ => inferInstanceAs (Decidable True)

/-- The unit vectors of the tangent space. -/
def basis {α : Type} [Zero α] [One α] (k : Kind) : List (List α) :=
  (List.range k.dimension).map (Dense.unit k.dimension)

end Kind

/-- A point of some kind. -/
structure Variable (α : Type) where
  /-- What it is a point of. -/
  kind : Kind
  /-- Its coordinates. -/
  coordinates : List α
  admits : kind.Admits coordinates.length

namespace Variable

variable {α β : Type}

/-- Variables of one kind with the same coordinates are equal. -/
@[ext] theorem ext {x y : Variable α} (h₁ : x.kind = y.kind)
    (h₂ : x.coordinates = y.coordinates) : x = y := by
  cases x; cases y; cases h₁; cases h₂; rfl

/-- The point of a kind with the given coordinates. -/
def ofCoordinates (kind : Kind) (coordinates : List α) : Except Error (Variable α) :=
  if h : kind.Admits coordinates.length then .ok ⟨kind, coordinates, h⟩
  else .error (.coordinateCount kind.name kind.dimension coordinates.length)

/-- The variable with `f` applied to each coordinate. -/
def map (f : α → β) (x : Variable α) : Variable β :=
  ⟨x.kind, x.coordinates.map f, by simpa using x.admits⟩

/-- The origin of a vector kind. -/
def origin [Zero α] : Kind → Except Error (Variable α)
  | .vector name n => ofCoordinates (.vector name n) (List.replicate n 0)
  | .manifold _ _ => .error .noAttribute

/-- The coordinates of the variable moved along a tangent vector. -/
def moved [Add α] [Elementary α] (x : Variable α) (tangent : Tensor α) : Except Error (List α) :=
  match x.kind with
  | .vector _ _ => do
    let sum ← (Tensor.ofList x.coordinates).combine (· + ·) tangent
    .ok sum.data
  | .manifold name n => do
    let motion ← (Manifolds.named name n).move x.coordinates tangent
    .ok motion.coordinates

/-- The variable moved along a tangent vector. -/
def move [Add α] [Elementary α] (x : Variable α) (tangent : Tensor α) :
    Except Error (Variable α) := do
  let coordinates ← x.moved tangent
  ofCoordinates x.kind coordinates

/-- The sensitivity to the tangent vector of length zero, along which the variable is moved, that
follows from a sensitivity to the coordinates it is moved to, which is given for any number of them.
-/
def moveAdjoint [Zero α] [Elementary α] (x : Variable α) (sensitivity : Nat → List α) : List α :=
  match x.kind with
  | .vector _ _ => sensitivity x.coordinates.length
  | .manifold name n =>
    match (Manifolds.named name n).move x.coordinates (.ofList (List.replicate n 0)) with
    | .ok motion => motion.adjoint (sensitivity motion.coordinates.length)
    | .error _ => List.replicate n 0

/-- The tangent vector that leads from one variable to another. -/
def displacement [Sub α] [Elementary α] (x y : Variable α) : Except Error (Tensor α) :=
  match x.kind with
  | .vector _ _ =>
    if x.kind = y.kind then .ok (.ofList (Dense.sub y.coordinates x.coordinates))
    else .error (.cannotCombine x.kind.name y.kind.name)
  | .manifold name n => do
    let d ← (Manifolds.named name n).displacement (.ofList x.coordinates) (.ofList y.coordinates)
    .ok d.tangent

/-! ## Vector operations -/

/-- The points of one vector kind combined coordinate by coordinate. -/
def combine (f : α → α → α) (x y : Variable α) : Except Error (Variable α) :=
  match x.kind with
  | .vector _ _ =>
    if x.kind = y.kind then ofCoordinates x.kind (List.zipWith f x.coordinates y.coordinates)
    else .error (.cannotCombine x.kind.name y.kind.name)
  | .manifold _ _ => .error .notSupported

/-- The sum of two points of a vector kind. -/
def add [Add α] (x y : Variable α) : Except Error (Variable α) := combine (· + ·) x y

/-- The difference of two points of a vector kind. -/
def sub [Sub α] (x y : Variable α) : Except Error (Variable α) := combine (· - ·) x y

/-- The point of a vector kind with `f` applied to each coordinate. -/
def mapVector (f : α → α) (x : Variable α) : Except Error (Variable α) :=
  match x.kind with
  | .vector _ _ => .ok (x.map f)
  | .manifold _ _ => .error .notSupported

/-- The opposite point of a vector kind. -/
def neg [Neg α] (x : Variable α) : Except Error (Variable α) := x.mapVector (-·)

/-- A point of a vector kind multiplied by numbers, entry by entry. -/
def scale [Mul α] (x : Variable α) (numbers : Tensor α) : Except Error (Variable α) :=
  match x.kind with
  | .vector _ _ => do
    let product ← (Tensor.ofList x.coordinates).combine (· * ·) numbers
    ofCoordinates x.kind product.data
  | .manifold _ _ => .error .notSupported

/-- The coordinates of a point of a vector kind. -/
def vector? (x : Variable α) : Except Error (List α) :=
  match x.kind with
  | .vector _ _ => .ok x.coordinates
  | .manifold _ _ => .error .noAttribute

/-- Whether two variables are of one kind and agree in every coordinate. -/
def agrees [BEq α] (x y : Variable α) : Bool :=
  decide (x.kind = y.kind) && x.coordinates == y.coordinates

@[simp] theorem kind_map (f : α → β) (x : Variable α) : (x.map f).kind = x.kind := rfl

@[simp] theorem coordinates_map (f : α → β) (x : Variable α) :
    (x.map f).coordinates = x.coordinates.map f := rfl

/-- A variable built from coordinates has them and the kind. -/
theorem ofCoordinates_eq_ok {kind : Kind} {xs : List α} {x : Variable α}
    (h : ofCoordinates kind xs = .ok x) : x.kind = kind ∧ x.coordinates = xs := by
  unfold ofCoordinates at h
  split at h <;> cases h
  exact ⟨rfl, rfl⟩

/-- Motion keeps the kind. -/
theorem kind_move [Add α] [Elementary α] {x y : Variable α} {t : Tensor α}
    (h : x.move t = .ok y) : y.kind = x.kind := by
  unfold move at h
  simp only [bind, Except.bind] at h
  split at h
  · cases h
  · exact (ofCoordinates_eq_ok h).1

end Variable

end LeastSquares
