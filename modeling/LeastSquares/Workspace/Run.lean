import LeastSquares.Workspace.Model
import LeastSquares.Workspace.Operator
import LeastSquares.Workspace.Solve
import LeastSquares.Workspace.Sparse

/-!
# Running a session

`Step.run` performs one step on a workspace and answers what the step shows. A refused step keeps no
result, and the session goes on from there.

A result that takes several names must consist of parts, of which each name gets one, in order
(`Session.name`). Superfluous names and superfluous parts are left alone.
-/

namespace LeastSquares

namespace Session

/-- The object that a command gives. -/
def perform : Command → Session Nat
  | .tensor data => object data
  | .flatten data => do fresh (.tensor (.ofList (← numbers data)))
  | .show a => resolve a
  | .same a b => do fresh (.truth (← same (← term a) (← term b)))
  | .equal a b => do fresh (.truth (← equal (← term a) (← term b)))
  | .length a => do
    let n ← lift (← read (← term a)).length
    fresh (.whole n)
  | .describe a => do describe (← term a)
  | .add a b => combine Item.add a b
  | .sub a b => combine Item.sub a b
  | .mul a b => combine Item.mul a b
  | .neg a => do allocate (← lift (← read (← term a)).neg)
  | .addTo a b => addTo a b
  | .subFrom a b => subFrom a b
  | .vector data block? => newVector data block?
  | .zeroVector => fresh (.vector 0)
  | .raise a x => mapScalars Value.add a x
  | .lower a x => mapScalars Value.sub a x
  | .scale a x => mapScalars Value.mul a x
  | .dense a entries? => dense a entries?
  | .normSq a => normSq a
  | .matrix scalars ranges => newMatrix scalars ranges
  | .zeroMatrix => fresh (.matrix 0)
  | .collate rows => collate rows
  | .ofDense block row column => do
    let t ← tensor .noAttribute block
    checked ((BlockMatrix.ofDense t row column).map .matrix)
  | .shiftRows a offset => do checked (((← matrix a).moveDown offset).map .matrix)
  | .apply a x => apply a x
  | .adjoint a y => adjoint a y
  | .coordinates a => coordinates a
  | .tileSizes a => tileSizes a
  | .sameTiles a b => sameBlocks a b
  | .point kind data => newPoint kind data
  | .origin kind => checked ((Variable.origin kind).map .point)
  | .dimension kind => fresh (.whole kind.dimension)
  | .basis kind => freshList (kind.basis.map fun xs => .tensor (.ofList xs))
  | .move a delta => move a delta
  | .displacement a b => displacement a b
  | .norm a => measure floatNorm a
  | .sum a => measure List.sum a
  | .assignment => allocate (.assignment .empty .empty)
  | .insert a key value => insert a key value
  | .get a key kind => get a key kind
  | .element a key kind? => element a key kind?
  | .set a key value kind? => set a key value kind?
  | .setElement a key value kind? => setElement a key value kind?
  | .contains a key => contains a key
  | .tangentSpan a key => tangentSpan a key
  | .keys a => keys a
  | .embed a key sensitivity => embed a key sensitivity
  | .copy a => copy a
  | .factor shape keys name? => newFactor shape keys name?
  | .graph factors => newGraph factors
  | .extend a factor => extend a factor
  | .cost a store => cost a store
  | .residual a store => residual a store
  | .linearize a store => linearModel a store
  | .solver settings => do
    let settings ← lift (settings.foldlM LinearSettings.change .standard)
    fresh (.solver (.fresh settings))
  | .settings settings => do
    checked ((settings.foldlM Minimizer.Settings.change .standard).map .settings)
  | .solve solver matrix bias x reporting => solve solver matrix bias x reporting
  | .minimize graph store settings? result? reporting =>
    minimize graph store settings? result? reporting

/-- Gives names to an object or to its parts. -/
def name (names : Names) (object : Nat) : Session Unit :=
  match names with
  | .none => return
  | .one name => bind name object
  | .parts names => do
    let parts ← parts object
    (names.zip parts).forM fun (name, part) => bind name part

/-- Shows an object and names it. -/
def keep (names : Names) (object : Nat) : Session Shown := do
  let shown ← view object
  name names object
  return shown

end Session

/-- Performs a step: what it shows or why it is refused, and the workspace behind it. -/
def Step.run (step : Step) (w : Workspace) : Except Error Shown × Workspace :=
  let session : Session Shown := do
    Session.keep step.names (← Session.perform step.command)
  StateT.run (ExceptT.run session) w

end LeastSquares
