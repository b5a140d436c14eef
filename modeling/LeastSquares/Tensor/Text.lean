import LeastSquares.Decimal.Text
import LeastSquares.Tensor

/-!
# Text of tensors

The entries of a tensor are shown in columns of one width. One style serves all entries
(`Tensor.style`): a point behind each number where all are whole, four places where they are of
like and moderate size, and scientific notation elsewhere. Rows are nested like the axes, and a long
row is continued on the next line. A tensor of many entries shows only the first and the last three
parts of an axis.
-/

namespace LeastSquares

/-- How the entries of a tensor are written. -/
inductive EntryStyle where
  | whole
  | places
  | scientific
deriving DecidableEq, Repr

/-- A number in a style. -/
def EntryStyle.text : EntryStyle → Float → String
  | whole, x => Decimal.fixed 0 x ++ (if x.isFinite then "." else "")
  | places, x => Decimal.fixed 4 x
  | scientific, x => Decimal.scientific 4 x

/-- The style that suits numbers none of which is zero. -/
def EntryStyle.suiting (xs : List Float) : EntryStyle :=
  match xs.map Float.abs with
  | [] => whole
  | size :: sizes =>
    let least := sizes.foldl (fun a b => if b < a then b else a) size
    let greatest := sizes.foldl (fun a b => if a < b then b else a) size
    if greatest / least > 1000 || greatest > 1e8 || least < 1e-4 then scientific
    else if xs.all fun x => x.ceil == x then whole
    else places

/-- Style and width of the columns of a tensor. -/
structure Columns where
  /-- How entries are written. -/
  style : EntryStyle
  /-- The width of each entry. -/
  width : Nat

namespace Columns

/-- The columns that hold the given numbers. Zeros and what is not finite take what room there
is. -/
def of (xs : List Float) : Columns :=
  let counted := xs.filter fun x => x.isFinite && x != 0
  let style := EntryStyle.suiting counted
  ⟨style, counted.foldl (fun width x => max width (style.text x).length) 1⟩

/-- The greatest number of characters in a line. -/
def lineWidth : Nat := 80

/-- The number of parts shown at either end of an axis that is cut short. -/
def ends : Nat := 3

/-- The parts of an axis that are shown, with a mark for those left out. -/
def shorten {α : Type} (brief : Bool) (mark : α) (parts : List α) : List α :=
  if brief && 2 * ends < parts.length then
    parts.take ends ++ [mark] ++ parts.drop (parts.length - ends)
  else parts

/-- A line break behind a comma, and the indent of what follows. -/
def continuation (lines indent : Nat) : String :=
  "," ++ String.ofList (List.replicate lines '\n' ++ List.replicate (indent + 1) ' ')

/-- Entries in rows of as many as fit into a line. -/
def wrapped (perLine : Nat) : Nat → List String → List String
  | 0, _ => []
  | fuel + 1, entries =>
    if entries.isEmpty then []
    else ", ".intercalate (entries.take perLine) :: wrapped perLine fuel (entries.drop perLine)

/-- The rows of a tensor of the given shape, behind an indent. -/
def rows (c : Columns) (brief : Bool) : Nat → List Nat → List Float → String
  | _, [], xs => Decimal.padLeft c.width (c.style.text (xs.headD 0))
  | indent, [_], xs =>
    let entries := xs.map fun x => Decimal.padLeft c.width (c.style.text x)
    let entries := shorten brief " ..." entries
    let perLine := max 1 ((lineWidth - indent) / (c.width + 2))
    "[" ++ (continuation 1 indent).intercalate (wrapped perLine entries.length entries) ++ "]"
  | indent, n :: m :: ns, xs =>
    let parts := (rowsOf n (volume (m :: ns)) xs).map (rows c brief (indent + 1) (m :: ns))
    "[" ++ (continuation (ns.length + 1) indent).intercalate (shorten brief "..." parts) ++ "]"

/-- The entries that are shown of a tensor cut short. -/
def shown : List Nat → List Float → List Float
  | [], xs => xs
  | n :: ns, xs => (shorten true [] ((rowsOf n (volume ns) xs).map (shown ns))).flatten

end Columns

/-- The number of entries above which a tensor is cut short. -/
def Tensor.manyEntries : Nat := 1000

/-- A tensor by its entries; an empty one also by its shape, unless it is a vector. -/
def Tensor.describe (t : Tensor Float) : String :=
  let opening := "tensor("
  if t.data.isEmpty then
    let size := if t.shape.length = 1 then "" else ", size=" ++ shapeText t.shape
    opening ++ "[]" ++ size ++ ")"
  else
    let brief := decide (manyEntries < t.data.length)
    let columns := Columns.of (if brief then Columns.shown t.shape t.data else t.data)
    opening ++ columns.rows brief opening.length t.shape t.data ++ ")"

end LeastSquares
