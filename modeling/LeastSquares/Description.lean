import LeastSquares.Decimal.Text
import LeastSquares.Graph

/-!
# One-line descriptions

The text by which the objects of the library are shown. Numbers are written in the fewest digits
that read back; the scalars of a block vector are elided.
-/

namespace LeastSquares

/-- Items in a row, between brackets. -/
def bracketed (opening closing : String) (items : List String) : String :=
  opening ++ ", ".intercalate items ++ closing

/-- A variable by its kind and coordinates. -/
def Variable.describe (x : Variable Float) : String :=
  x.kind.name ++ bracketed "([" "])" (x.coordinates.map Decimal.shortest)

/-- An assignment by its keys and variables. -/
def Assignment.describe (s : Assignment Float) : String :=
  bracketed "Values(\x7b" "\x7d)" (s.entries.map fun e => toString e.1 ++ ": " ++ e.2.describe)

/-- A block vector by its blocks. -/
def BlockVector.describe (v : BlockVector Float) : String :=
  "BlockSparseVector(scalars=..., blocks=" ++
    bracketed "[" "])" (v.blocks.map fun b => s!"[{b.start}, {b.stop})")

/-- A block matrix by its sizes. -/
def BlockMatrix.describe (A : BlockMatrix Float) : String :=
  let tiles := A.tiles.length
  let scalars := A.scalars.length
  s!"BlockSparseMatrix(blocks={tiles}, shape=({A.rows}, {A.columns}), nnz={scalars})"

/-- The text of a factor, by its name and keys. -/
def factorText (name : String) (keys : List Int) : String :=
  name ++ bracketed "(keys=[" "])" (keys.map toString)

/-- The text of a graph, by the text of its list of factors. -/
def graphText (factors : String) : String := "NonlinearFactorGraph(factors=" ++ factors ++ ")"

/-- A factor by its name and keys. -/
def Factor.describe {α : Type} (f : Factor α) : String := factorText f.name f.keys

/-- A graph by its factors. -/
def Graph.describe {α : Type} (g : Graph α) : String :=
  graphText (bracketed "[" "]" (g.factors.map Factor.describe))

end LeastSquares
