import LeastSquares.Dense

/-!
# Tensors

A tensor is a shape with its entries in row-major order. Residuals, measurements and solver
operands are tensors; only those with one axis are vectors (`Tensor.ofList`).

Two tensors combine entrywise (`Tensor.combine`). Shapes are matched from the last axis backwards,
and along each axis the lengths agree or one of them is 1 and is stretched (`joinShapes`). Tensors
of one shape combine without any stretching (`combine_of_shape_eq`). What stretching repeats
(`Tensor.spread`) is summed on the way back (`gather`).
-/

namespace LeastSquares

variable {α β γ : Type}

/-- The number of entries of a shape. -/
def volume (shape : List Nat) : Nat := shape.foldr (· * ·) 1

@[simp] theorem volume_nil : volume [] = 1 := rfl

@[simp] theorem volume_cons (n : Nat) (ns : List Nat) : volume (n :: ns) = n * volume ns := rfl

/-- Entries in row-major order together with their shape. -/
structure Tensor (α : Type) where
  /-- The length of each axis. -/
  shape : List Nat
  /-- The entries, the last index varying fastest. -/
  data : List α
  length_data : data.length = volume shape
deriving DecidableEq

namespace Tensor

/-- Tensors with the same shape and entries are equal. -/
@[ext] theorem ext {s t : Tensor α} (h₁ : s.shape = t.shape) (h₂ : s.data = t.data) : s = t := by
  cases s; cases t; cases h₁; cases h₂; rfl

/-- A vector. -/
def ofList (xs : List α) : Tensor α := ⟨[xs.length], xs, by simp⟩

/-- A single number, without axes. -/
def scalar (x : α) : Tensor α := ⟨[], [x], rfl⟩

/-- The tensor of the given shape and entries, if their numbers agree. -/
def ofData (shape : List Nat) (data : List α) : Except Error (Tensor α) :=
  if h : data.length = volume shape then .ok ⟨shape, data, h⟩ else .error .lengthMismatch

/-- A tensor with `f` applied to each entry. -/
def map (f : α → β) (t : Tensor α) : Tensor β :=
  ⟨t.shape, t.data.map f, by simpa using t.length_data⟩

/-- The rows and columns of a tensor with two axes. -/
def matrix? (t : Tensor α) : Option (Nat × Nat) :=
  match t.shape with
  | [r, c] => some (r, c)
  | _ => none

/-- The parts along the first axis, which must exist. -/
def slices (t : Tensor α) : Except Error (List (Tensor α)) :=
  match t.shape with
  | n :: rest => (rowsOf n (volume rest) t.data).mapM (ofData rest)
  | [] => .error .notSupported

@[simp] theorem shape_map (f : α → β) (t : Tensor α) : (t.map f).shape = t.shape := rfl

@[simp] theorem data_map (f : α → β) (t : Tensor α) : (t.map f).data = t.data.map f := rfl

@[simp] theorem shape_ofList (xs : List α) : (ofList xs).shape = [xs.length] := rfl

@[simp] theorem data_ofList (xs : List α) : (ofList xs).data = xs := rfl

@[simp] theorem map_ofList (f : α → β) (xs : List α) : (ofList xs).map f = ofList (xs.map f) := by
  ext1 <;> simp

@[simp] theorem map_scalar (f : α → β) (x : α) : (scalar x).map f = scalar (f x) := rfl

/-- A tensor with one axis has as many entries as the axis is long. -/
theorem length_data_of_shape {t : Tensor α} {n : Nat} (h : t.shape = [n]) : t.data.length = n := by
  rw [t.length_data, h, volume_cons, volume_nil, Nat.mul_one]

/-- A tensor with one axis is the vector of its entries. -/
theorem ofList_data {t : Tensor α} {n : Nat} (h : t.shape = [n]) : ofList t.data = t :=
  Tensor.ext (by rw [shape_ofList, length_data_of_shape h, h]) rfl

/-- A tensor with two axes has an entry for each row and column. -/
theorem length_data_of_axes {t : Tensor α} {r c : Nat} (h : t.shape = [r, c]) :
    t.data.length = r * c := by
  rw [t.length_data, h, volume_cons, volume_cons, volume_nil, Nat.mul_one]

theorem matrix?_eq_some {t : Tensor α} {r c : Nat} :
    t.matrix? = some (r, c) ↔ t.shape = [r, c] := by
  rw [matrix?]
  split <;> simp_all

theorem map_ofData (f : α → β) (shape : List Nat) (data : List α) :
    (ofData shape data).map (map f) = ofData shape (data.map f) := by
  simp only [ofData, List.length_map]
  split <;> rfl

end Tensor

/-! ## Stretching -/

/-- The common length of two matched axes. -/
def joinAxes (m n : Nat) : Option Nat :=
  if m = n then some m else if m = 1 then some n else if n = 1 then some m else none

/-- Matches two shapes whose last axes come first. -/
def joinReversed : List Nat → List Nat → Option (List Nat)
  | [], ns => some ns
  | ms, [] => some ms
  | m :: ms, n :: ns => do
    let k ← joinAxes m n
    let ks ← joinReversed ms ns
    some (k :: ks)

/-- The common shape of two operands. -/
def joinShapes (ms ns : List Nat) : Option (List Nat) :=
  (joinReversed ms.reverse ns.reverse).map List.reverse

/-- Repeats row-major entries along every axis of length 1 whose target is longer. -/
def spreadAxes : List Nat → List Nat → List α → List α
  | m :: ms, n :: ns, xs =>
    let parts := (rowsOf m (volume ms) xs).map (spreadAxes ms ns)
    if m = n then parts.flatten else (List.replicate n (parts.headD [])).flatten
  | _, _, xs => xs

/-- A shape with axes of length 1 in front, up to the given number of axes. -/
def padShape (axes : Nat) (shape : List Nat) : List Nat :=
  List.replicate (axes - shape.length) 1 ++ shape

/-- The entries of a tensor repeated to fill a target shape of at least as many axes. -/
def Tensor.spread (t : Tensor α) (target : List Nat) : List α :=
  if t.shape = target then t.data else spreadAxes (padShape target.length t.shape) target t.data

/-- Sums row-major entries along every axis of length 1 whose target is longer. -/
def gatherAxes [Zero α] [Add α] : List Nat → List Nat → List α → List α
  | m :: ms, n :: ns, ys =>
    let parts := (rowsOf n (volume ns) ys).map (gatherAxes ms ns)
    if m = n then parts.flatten else parts.foldl Dense.add (List.replicate (volume ms) 0)
  | _, _, ys => ys

/-- The entries of a target shape summed to fill a shape that stretches to it. -/
def gather [Zero α] [Add α] (shape target : List Nat) (ys : List α) : List α :=
  if shape = target then ys else gatherAxes (padShape target.length shape) target ys

/-- Entries that were not repeated are left alone. -/
@[simp] theorem Tensor.spread_self (t : Tensor α) : t.spread t.shape = t.data := by
  simp [Tensor.spread]

/-- Entries that were not repeated are not summed. -/
@[simp] theorem gather_self [Zero α] [Add α] (shape : List Nat) (ys : List α) :
    gather shape shape ys = ys := by
  simp [gather]

/-- Combines two tensors entrywise, stretching axes of length 1. -/
def Tensor.combine (f : α → β → γ) (s : Tensor α) (t : Tensor β) : Except Error (Tensor γ) :=
  if s.shape = t.shape then Tensor.ofData s.shape (List.zipWith f s.data t.data)
  else match joinShapes s.shape t.shape with
    | some target => Tensor.ofData target (List.zipWith f (s.spread target) (t.spread target))
    | none => .error .lengthMismatch

/-- Entries of one shape combine to entries of that shape. -/
theorem Tensor.length_zipWith_data (f : α → β → γ) {s : Tensor α} {t : Tensor β}
    (h : s.shape = t.shape) : (List.zipWith f s.data t.data).length = volume s.shape := by
  rw [List.length_zipWith, s.length_data, t.length_data, h, Nat.min_self]

/-- Tensors of one shape combine entry by entry. -/
theorem Tensor.combine_of_shape_eq (f : α → β → γ) {s : Tensor α} {t : Tensor β}
    (h : s.shape = t.shape) :
    s.combine f t = .ok ⟨s.shape, List.zipWith f s.data t.data, length_zipWith_data f h⟩ := by
  have hl := length_zipWith_data f h
  simp [Tensor.combine, h, Tensor.ofData, h ▸ hl]

/-- Vectors of one length combine entry by entry. -/
theorem Tensor.combine_ofList (f : α → β → γ) {xs : List α} {ys : List β}
    (h : xs.length = ys.length) :
    (Tensor.ofList xs).combine f (.ofList ys) = .ok (.ofList (List.zipWith f xs ys)) := by
  rw [Tensor.combine_of_shape_eq f (by simp [h])]
  congr 1
  ext1 <;> simp [h]

end LeastSquares
