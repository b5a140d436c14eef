import LeastSquares.Dense

/-!
# Block vectors

A block vector is a record of contributions to an implicit dense vector: a list of spans, and one
buffer of scalars of which each span owns the next run (`BlockVector.pieces`). Blocks are never
merged. Adding vectors appends their records, and what overlaps is reconciled only when the vector
is materialized (`BlockVector.dense`).

Since every scalar belongs to one block, uniform arithmetic acts on the buffer alone.
-/

namespace LeastSquares

/-- A vector as a record of blocks and of the scalars they own, in order. -/
structure BlockVector (α : Type) where
  /-- The scalars of all blocks. -/
  scalars : List α
  /-- The positions of each block. -/
  blocks : List Span
deriving DecidableEq

/-- A contiguous block given by its bounds and a step. -/
def Span.ofRange (start stop step : Int) : Except Error Span :=
  if step = 1 then .ok ⟨start, stop⟩
  else if step = 0 then .error .zeroStep
  else .error (.notContiguous start stop step)

namespace BlockVector

variable {α β : Type}

/-- A vector of one block, which must have a position for each scalar. -/
def ofBlock (scalars : List α) (block : Span) : Except Error (BlockVector α) :=
  if block.length = scalars.length then .ok ⟨scalars, [block]⟩
  else .error (.scalarCount block scalars.length)

/-- A vector of one block that begins at position 0. -/
def ofList (scalars : List α) : BlockVector α := ⟨scalars, [Span.ofLength 0 scalars.length]⟩

/-- The bound behind all positions: the largest upper bound of a block. -/
def dimension (v : BlockVector α) : Int := ((v.blocks.map Span.stop).max?).getD 0

/-- The blocks with the scalars they own. -/
def pieces (v : BlockVector α) : List (Span × List α) :=
  v.blocks.zip (runs (v.blocks.map Span.length) v.scalars)

/-- The vector with `f` applied to each scalar. -/
def map (f : α → β) (v : BlockVector α) : BlockVector β := ⟨v.scalars.map f, v.blocks⟩

/-- The vector without blocks. -/
instance : Zero (BlockVector α) := ⟨⟨[], []⟩⟩

instance : Add (BlockVector α) := ⟨fun v w => ⟨v.scalars ++ w.scalars, v.blocks ++ w.blocks⟩⟩

instance [Neg α] : Sub (BlockVector α) :=
  ⟨fun v w => ⟨v.scalars ++ w.scalars.map (-·), v.blocks ++ w.blocks⟩⟩

/-- The vector with each scalar multiplied by `c`. -/
def scale [Mul α] (v : BlockVector α) (c : α) : BlockVector α := v.map (· * c)

/-- The vector with `c` added to each scalar. -/
def raise [Add α] (v : BlockVector α) (c : α) : BlockVector α := v.map (· + c)

/-- The vector with `c` subtracted from each scalar. -/
def lower [Sub α] (v : BlockVector α) (c : α) : BlockVector α := v.map (· - c)

/-- Negation multiplies each scalar by minus one. -/
instance [One α] [Neg α] [Mul α] : Neg (BlockVector α) := ⟨fun v => v.scale (-1)⟩

/-- Adds pieces, in order, into a dense vector. -/
def scatter [Add α] (pieces : List (Span × List α)) (dense : List α) : Except Error (List α) :=
  pieces.foldlM (fun acc piece => piece.1.accumulate piece.2 acc) dense

/-- The dense vector of the given length, at least the dimension. -/
def dense [Zero α] [Add α] (v : BlockVector α) (entries : Int) : Except Error (List α) :=
  if entries < v.dimension then .error (.tooFewEntries v.dimension entries)
  else do
    let dense ← zeros entries
    scatter v.pieces dense

/-- The squared length of the dense vector. -/
def normSq [Zero α] [Add α] [Mul α] (v : BlockVector α) : Except Error α := do
  let dense ← v.dense v.dimension
  .ok (Dense.normSq dense)

@[simp] theorem scalars_add (v w : BlockVector α) : (v + w).scalars = v.scalars ++ w.scalars := rfl

@[simp] theorem blocks_add (v w : BlockVector α) : (v + w).blocks = v.blocks ++ w.blocks := rfl

@[simp] theorem scalars_zero : (0 : BlockVector α).scalars = [] := rfl

@[simp] theorem blocks_zero : (0 : BlockVector α).blocks = [] := rfl

@[simp] theorem scalars_sub [Neg α] (v w : BlockVector α) :
    (v - w).scalars = v.scalars ++ w.scalars.map (-·) := rfl

@[simp] theorem blocks_sub [Neg α] (v w : BlockVector α) :
    (v - w).blocks = v.blocks ++ w.blocks := rfl

@[simp] theorem scalars_map (f : α → β) (v : BlockVector α) :
    (v.map f).scalars = v.scalars.map f := rfl

@[simp] theorem blocks_map (f : α → β) (v : BlockVector α) : (v.map f).blocks = v.blocks := rfl

end BlockVector

end LeastSquares
