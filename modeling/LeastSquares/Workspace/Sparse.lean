import LeastSquares.Workspace.Shown
import LeastSquares.Workspace.Source

/-!
# Commands on block vectors and block matrices

Vectors and matrices are built, materialized and multiplied within the limits of the machine
(`LeastSquares.Machine`). A command that is given an object of another type refuses it, for the
reason that such an object gives at the place where the command looks at it.
-/

namespace LeastSquares.Session

/-! ## Vectors -/

/-- A new vector from data and an optional range. The step of the range is looked at first when it
is zero, and behind the data otherwise. -/
def newVector (data : Source) (block? : Option (Int × Int × Int)) : Session Nat := do
  match block? with
  | none => do
    fresh (.vector (.ofList (← numbers data)))
  | some (start, stop, step) => do
    if step = 0 then throw .zeroStep
    let scalars ← numbers data
    let block ← lift (Span.ofRange start stop step)
    checked ((Machine.ofBlock scalars block).map .vector)

/-- A new vector whose scalars are the result of an operation with a number. -/
def mapScalars (f : Value → Value → Except Error Value) (a : String) (x : Term) :
    Session Nat := do
  let v ← vector a
  match ← read (← term x) with
  | .plain w => do
    match ← lift (f (.tensor (.ofList v.scalars)) w) with
    | .tensor t =>
      if t.shape.length = 1 then fresh (.vector ⟨t.data, v.blocks⟩) else throw .notSupported
    | .vector _ | .point _ => throw .noAttribute
    | _ => throw .notSupported
  | _ => throw .notSupported

/-- The dense form of an object. A tensor is dense already. -/
def dense (a : String) (entries? : Option Int) : Session Nat := do
  match ← item a, entries? with
  | .plain (.vector v), _ => do
    let entries ← lift (Machine.dense v (entries?.getD v.dimension))
    fresh (.tensor (.ofList entries))
  | .plain (.matrix A), none => checked ((Machine.denseMatrix A).map .tensor)
  | .plain (.tensor _), none => resolve a
  | .plain (.matrix _), some _ | .plain (.tensor _), some _ => throw .notSupported
  | _, _ => throw .noAttribute

/-- The squared length of a vector or a variable. -/
def normSq (a : String) : Session Nat := do
  match ← item a with
  | .plain (.vector v) => checked ((Machine.normSq v).map .real)
  | .plain (.point x) => do
    let xs ← lift x.vector?
    fresh (.tensor (.scalar (Dense.normSq xs)))
  | _ => throw .noAttribute

/-! ## Matrices -/

/-- A tile given by the ranges of its rows and columns. -/
def tileOf (ranges : (Int × Int × Int) × Int × Int × Int) : Except Error Tile := do
  let ((firstRow, rowStop, rowStep), firstColumn, columnStop, columnStep) := ranges
  let rows ← Stride.ofRange firstRow rowStop rowStep
  let columns ← Stride.ofRange firstColumn columnStop columnStep
  .ok ⟨rows, columns⟩

/-- A new matrix of tiles. -/
def newMatrix (scalars : Source) (ranges : List ((Int × Int × Int) × Int × Int × Int)) :
    Session Nat := do
  let given ← source scalars
  let tiles ← lift (ranges.mapM tileOf)
  lift (Machine.checkSides tiles)
  let t ← lift (given.tensor .noAttribute)
  checked ((BlockMatrix.ofTiles t tiles).map .matrix)

/-- Where the scalars of an object go. -/
inductive Layout where
  | spans (blocks : List Span)
  | tiles (tiles : List Tile)

namespace Layout

/-- Whether two lists of tiles cover the same positions, one by one. -/
def sameTiles (ss ts : List Tile) : Bool :=
  ss.length == ts.length && (List.zipWith Tile.alike ss ts).all id

/-- Whether two layouts cover the same positions, one by one. Spans and tiles do only where there
are none. -/
def alike : Layout → Layout → Bool
  | spans ss, spans ts => sameLayout ss ts
  | tiles ss, tiles ts => sameTiles ss ts
  | spans ss, tiles ts | tiles ts, spans ss => ss.isEmpty && ts.isEmpty

end Layout

/-- The layout of an object that has one. -/
def layout : Item → Except Error Layout
  | .plain (.vector v) => .ok (.spans v.blocks)
  | .plain (.matrix A) => .ok (.tiles A.tiles)
  | _ => .error .noAttribute

/-- The rows of a matrix to be collated, which must have one layout. Tiles are no layout of rows,
but rows without tiles are found out only where they are stacked. -/
def collectRows : List Item → Except Error (List (BlockVector Float))
  | [] => .ok []
  | first :: rest => do
    let common ← layout first
    (first :: rest).forM fun row => do
      if (← layout row).alike common then .ok () else .error .rowLayout
    match common with
    | .spans [] | .tiles [] => .error .nothingToCollate
    | _ => (first :: rest).mapM vectorOf
where
  /-- The vector that an object is. -/
  vectorOf : Item → Except Error (BlockVector Float)
    | .plain (.vector v) => .ok v
    | _ => .error .notSupported

/-- A new matrix of stacked rows. -/
def collate (rows : List String) : Session Nat := do
  let items ← rows.mapM item
  let rows ← lift (collectRows items)
  checked ((BlockMatrix.collate rows).map .matrix)

/-- The product of a matrix and a vector, or of two tensors. -/
def apply (a : String) (x : Source) : Session Nat := do
  let x ← source x
  match ← item a with
  | .plain (.matrix A) => do
    let product ← lift (x.operand >>= Machine.apply A)
    fresh (.tensor (.ofList product))
  | .plain (.tensor s) => do
    let t ← lift (x.tensor .notSupported)
    checked ((s.product t).map .tensor)
  | _ => throw .notSupported

/-- The product with a transposed matrix. -/
def adjoint (a : String) (y : Source) : Session Nat := do
  let A ← matrix a
  let y ← source y
  let product ← lift (y.operand >>= Machine.adjoint A)
  fresh (.tensor (.ofList product))

/-- The size, the rows and columns of the entries, and the values of a matrix in coordinate form. -/
def coordinates (a : String) : Session Nat := do
  let A ← matrix a
  let entries ← lift (Machine.coordinates A)
  let size ← freshList [.whole A.rows, .whole A.columns]
  let rows ← freshList (entries.map fun e => .whole e.row)
  let columns ← freshList (entries.map fun e => .whole e.column)
  let indices ← allocate (.list [rows, columns])
  let values ← fresh (.tensor (.ofList (entries.map (·.value))))
  allocate (.list [size, indices, values])

/-- The number of scalars of each tile of a matrix. -/
def tileSizes (a : String) : Session Nat := do
  match ← item a with
  | .plain (.matrix A) => freshList (A.tiles.map fun t => .whole t.size)
  | .plain (.vector v) => if v.blocks.isEmpty then freshList [] else throw .noAttribute
  | _ => throw .noAttribute

/-- Whether two matrices, or two vectors, have alike blocks. -/
def sameBlocks (a b : String) : Session Nat := do
  let first ← lift (layout (← item a))
  let second ← lift (layout (← item b))
  fresh (.truth (first.alike second))

end LeastSquares.Session
