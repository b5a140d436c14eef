import LeastSquares.Factor
import LeastSquares.Residual

/-!
# Factors defined by a residual

The cost of such a factor is the squared length of its residual, and its linear model is the
derivative of the residual along tangent vectors of the variables under its keys
(`ResidualFactor.linearize`).

To this end all keys are looked up, every variable under a key is replaced by itself moved along a
tangent vector of length zero (`perturb`), the residual is evaluated there, and each of its rows is
traced back to the tangent vectors (`jacobianBlock`). Keys are visited in order, so where a key
occurs twice the last motion stays and the earlier one has no effect: the Jacobian block of the
earlier occurrence is zero, while both blocks cover the columns of the variable. So is the block of
a variable that the residual does not read, whatever its coordinates.

Each row of the Jacobian is the sum of the sensitivities of its keys, embedded into joint
coordinates; the rows have one layout and are collated into a matrix (`assemble`).
-/

namespace LeastSquares

variable {α : Type}

/-- A factor whose cost is the squared length of a residual. -/
structure ResidualFactor (α : Type) where
  /-- The name it is shown by. -/
  name : String
  /-- The keys in the order the residual uses them. -/
  keys : List Int
  /-- The residual. -/
  residual : Residual α

/-- Replaces variables, one key after the other, by what the variables of `s` become along a
tangent vector of length zero. -/
def perturb [Zero α] [Add α] [Elementary α] (s : Assignment α) :
    List Int → Assignment α → Except Error (Assignment α)
  | [], t => .ok t
  | key :: rest, t => do
    let x ← s.find key
    let moved ← x.move (.ofList (List.replicate x.kind.dimension 0))
    let t ← t.set key moved none
    perturb s rest t

/-- The derivatives of residual entries along the tangent vector of a variable, from their gradients
by coordinates. Only the last motion of a variable has an effect, and only on entries that depend on
the variable. -/
def jacobianBlock [Zero α] [Add α] [Elementary α] (gradients : List (Gradient α)) (key : Int)
    (x : Variable α) (last : Bool) : List (List α) :=
  gradients.map fun g =>
    if last && g.any (·.1 == key) then x.moveAdjoint (g.along key)
    else List.replicate x.kind.dimension 0

/-- The Jacobian blocks of keys, in order. -/
def jacobianBlocks [Zero α] [Add α] [Elementary α] (s : Assignment α)
    (gradients : List (Gradient α)) : List Int → Except Error (List (Int × List (List α)))
  | [] => .ok []
  | key :: rest => do
    let x ← s.find key
    let blocks ← jacobianBlocks s gradients rest
    .ok ((key, jacobianBlock gradients key x (!rest.contains key)) :: blocks)

/-- The Jacobian row of one residual entry: the sum of what its keys contribute. -/
def assembleRow (s : Assignment α) (blocks : List (Int × List (List α))) (i : Nat) :
    Except Error (BlockVector α) :=
  blocks.foldlM (fun row block => do
    let part ← s.embed block.1 (block.2.getD i [])
    .ok (row + part)) 0

/-- The linear model of a residual with a Jacobian block, given by its rows, for each key. -/
def assemble [Neg α] (s : Assignment α) (blocks : List (Int × List (List α)))
    (residual : List α) : Except Error (LinearModel α) := do
  let rows ← (List.range residual.length).mapM (assembleRow s blocks)
  let matrix ← BlockMatrix.collate rows
  .ok ⟨matrix, BlockVector.ofList (residual.map (-·))⟩

namespace ResidualFactor

/-- A factor on at least one key. -/
def make (owner defaultName : String) (name? : Option String) (keys : List Int)
    (residual : Residual α) : Except Error (ResidualFactor α) := do
  checkKeys owner keys
  .ok ⟨nameOr defaultName name?, keys, residual⟩

/-- The squared length of the residual. -/
def cost [Zero α] [Add α] [Mul α] (f : ResidualFactor α) (s : Assignment α) :
    Except Error α := do
  let r ← f.residual.value s
  .ok (Dense.normSq r.data)

section
variable [Zero α] [One α] [Add α] [Neg α] [Mul α] [Elementary α]

/-- The linear model of the residual at an assignment. -/
def linearize (f : ResidualFactor α) (s : Assignment α) : Except Error (LinearModel α) := do
  let _ ← f.keys.mapM s.find
  let t ← perturb s f.keys s
  let r ← f.residual.trace t
  let m := r.value.data.length
  if m = 0 then .error .emptyResidual
  else do
    let gradients := (List.range m).map fun i => r.adjoint (Dense.unit m i)
    let blocks ← jacobianBlocks s gradients f.keys
    assemble s blocks r.value.data

/-- The factor of a residual. -/
def toFactor (f : ResidualFactor α) : Factor α where
  name := f.name
  keys := f.keys
  cost := f.cost
  linearize := f.linearize

end

end ResidualFactor

end LeastSquares
