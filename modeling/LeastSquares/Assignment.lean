import LeastSquares.BlockVector
import LeastSquares.Variable

/-!
# Assignments

An assignment stores variables of any kinds by integer key, in insertion order. The tangent spaces
of its variables make up one joint tangent space: each variable owns the span behind those of the
variables inserted before it (`Assignment.layout`), so the spans tile `[0, dimension)`. Spans are a
function of the entries, hence only an insertion can change them.

A variable is replaced only by one of its own kind (`Assignment.set`). A joint tangent vector moves
every variable along its own part (`Assignment.move`), and a sensitivity of one variable is
placed in joint coordinates by `Assignment.embed`.
-/

namespace LeastSquares

/-- Variables by key, in insertion order. -/
structure Assignment (α : Type) where
  /-- The keys with their variables. -/
  entries : List (Int × Variable α)

namespace Assignment

variable {α : Type}

/-- The assignment without variables. -/
def empty : Assignment α := ⟨[]⟩

/-- The number of variables. -/
def size (s : Assignment α) : Nat := s.entries.length

/-- The keys in insertion order. -/
def keys (s : Assignment α) : List Int := s.entries.map (·.1)

/-- Whether a variable is stored under the key. -/
def contains (s : Assignment α) (key : Int) : Bool := (s.entries.lookup key).isSome

/-- The dimension of the joint tangent space. -/
def dimension (s : Assignment α) : Nat := total (s.entries.map fun e => e.2.kind.dimension)

/-- The spans of consecutive variables, the first of which begins at `offset`. -/
def layoutFrom (offset : Nat) : List (Int × Variable α) → List (Int × Span)
  | [] => []
  | (key, x) :: rest =>
    (key, Span.ofLength offset x.kind.dimension) :: layoutFrom (offset + x.kind.dimension) rest

/-- The span of each variable in the joint tangent space. -/
def layout (s : Assignment α) : List (Int × Span) := layoutFrom 0 s.entries

/-- What a list of pairs holds under a key. -/
def lookup {γ : Type} (key : Int) (pairs : List (Int × γ)) : Except Error γ :=
  match pairs.lookup key with
  | some x => .ok x
  | none => .error (.missingKey key)

/-- The variable under a key. -/
def find (s : Assignment α) (key : Int) : Except Error (Variable α) := lookup key s.entries

/-- The span of the variable under a key. -/
def span (s : Assignment α) (key : Int) : Except Error Span := lookup key s.layout

/-- The variable under a key, which must be of the given kind. -/
def get (s : Assignment α) (key : Int) (kind : Kind) : Except Error (Variable α) := do
  let x ← s.find key
  if x.kind = kind then .ok x else .error (.wrongKind key x.kind.name kind.name)

/-- The variable under a key, of the given kind if one is given. -/
def select (s : Assignment α) (key : Int) (kind? : Option Kind) : Except Error (Variable α) :=
  match kind? with
  | some kind => s.get key kind
  | none => s.find key

/-- The assignment with a new variable behind the others. -/
def insert (s : Assignment α) (key : Int) (x : Variable α) : Except Error (Assignment α) :=
  if s.contains key then .error (.duplicateKey key) else .ok ⟨s.entries ++ [(key, x)]⟩

/-- The entries with the variable under a key replaced. -/
def replace (key : Int) (x : Variable α) (entries : List (Int × Variable α)) :
    List (Int × Variable α) :=
  entries.map fun e => if e.1 = key then (key, x) else e

/-- The assignment with the variable under a key replaced by one of its kind, which must also be
the given kind if one is given. -/
def set (s : Assignment α) (key : Int) (x : Variable α) (kind? : Option Kind) :
    Except Error (Assignment α) := do
  let current ← s.select key kind?
  if x.kind = current.kind then .ok ⟨replace key x s.entries⟩
  else .error (.wrongReplacement key current.kind.name x.kind.name)

/-- A sensitivity of the variable under a key, in joint tangent coordinates. -/
def embed (s : Assignment α) (key : Int) (sensitivity : List α) :
    Except Error (BlockVector α) := do
  let span ← s.span key
  BlockVector.ofBlock sensitivity span

/-- Moves consecutive variables along consecutive parts of a tangent vector. -/
def moveEntries [Add α] [Elementary α] :
    List (Int × Variable α) → List α → Except Error (List (Int × Variable α))
  | [], _ => .ok []
  | (key, x) :: rest, tangent => do
    let moved ← x.move (Tensor.ofList (tangent.take x.kind.dimension))
    let others ← moveEntries rest (tangent.drop x.kind.dimension)
    .ok ((key, moved) :: others)

/-- The assignment with every variable moved along its part of a tangent vector of the given length.
-/
def moveWithin [Add α] [Elementary α] (s : Assignment α) (dimension : Nat)
    (tangent : Tensor α) : Except Error (Assignment α) :=
  if tangent.shape = [dimension] then do
    let moved ← moveEntries s.entries tangent.data
    .ok ⟨moved⟩
  else .error (.tangentShape dimension tangent.shape)

/-- The assignment with every variable moved along its part of a joint tangent vector. -/
def move [Add α] [Elementary α] (s : Assignment α) (tangent : Tensor α) :
    Except Error (Assignment α) :=
  s.moveWithin s.dimension tangent

end Assignment

end LeastSquares
