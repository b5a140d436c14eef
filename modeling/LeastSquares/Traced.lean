import LeastSquares.Tensor.Product
import LeastSquares.Variable

/-!
# Tensors traced back to variables

A traced tensor is a tensor computed from the coordinates of variables, together with the way back:
its adjoint turns a sensitivity to the entries of the tensor into sensitivities to the coordinates
(`Traced.adjoint`). A Jacobian is read off row by row, as the adjoint of unit sensitivities.

A tensor is traced by computing it with the operations of this module. Each does to the value what
its name says (`value_map`, `value_sum`, …), and passes a sensitivity to the result on to its
operands: multiplied by the partial derivatives at the operands, and summed over the entries to
which an operand was stretched (`gather`). What does not depend on variables receives nothing, so an
infinite partial derivative there does no harm.
-/

namespace LeastSquares

/-- Sensitivities to the coordinates of the variables under some keys. A key may occur several
times; its sensitivities add up. -/
abbrev Gradient (α : Type) := List (Int × List α)

/-- The sum of numbers, of which a single one is left as it is. -/
def sumOrOnly {α : Type} [Zero α] [Add α] : List α → α
  | [] => 0
  | x :: xs => xs.foldl (· + ·) x

/-- The sensitivities to the `n` coordinates of the variable under a key. -/
def Gradient.along {α : Type} [Zero α] [Add α] (g : Gradient α) (key : Int) (n : Nat) : List α :=
  let parts := (g.filter fun part => part.1 == key).map (·.2)
  (List.range n).map fun i => sumOrOnly (parts.map (·.getD i 0))

@[simp] theorem Gradient.length_along {α : Type} [Zero α] [Add α] (g : Gradient α) (key : Int)
    (n : Nat) : (g.along key n).length = n := by
  simp [Gradient.along]

/-- A tensor computed from variables, with the way back to their coordinates. -/
structure Traced (α : Type) where
  /-- The tensor. -/
  value : Tensor α
  /-- The sensitivities to coordinates that follow from a sensitivity to each entry. -/
  adjoint : List α → Gradient α

namespace Traced

variable {α : Type}

/-- A tensor that does not depend on variables. -/
def constant (t : Tensor α) : Traced α := ⟨t, fun _ => []⟩

/-- The coordinates of the variable under a key. -/
def coordinates (key : Int) (x : Variable α) : Traced α :=
  ⟨.ofList x.coordinates, fun g => [(key, g)]⟩

/-! ## Operations of each entry -/

/-- A function of each entry. From a sensitivity to its value at a number, `pull` makes the
sensitivity to the number. -/
def map (apply : α → α) (pull : α → α → α) (t : Traced α) : Traced α :=
  ⟨t.value.map apply, fun g => t.adjoint (List.zipWith pull g t.value.data)⟩

/-- An operation of the entries of two tensors that are stretched to one shape. From a sensitivity
to its value at two numbers, `left` and `right` make the sensitivities to them. -/
def combine [Zero α] [Add α] (apply : α → α → α) (left right : α → α → α → α) (s t : Traced α) :
    Except Error (Traced α) := do
  let value ← s.value.combine apply t.value
  let operands := (s.value.spread value.shape).zip (t.value.spread value.shape)
  .ok ⟨value, fun g =>
    let toLeft := List.zipWith (fun g p => left g p.1 p.2) g operands
    let toRight := List.zipWith (fun g p => right g p.1 p.2) g operands
    t.adjoint (gather t.value.shape value.shape toRight)
      ++ s.adjoint (gather s.value.shape value.shape toLeft)⟩

/-- The sum of two tensors. -/
def add [Zero α] [Add α] : Traced α → Traced α → Except Error (Traced α) :=
  combine (· + ·) (fun g _ _ => g) (fun g _ _ => g)

/-- The difference of two tensors. -/
def sub [Zero α] [Add α] [Sub α] [Neg α] : Traced α → Traced α → Except Error (Traced α) :=
  combine (· - ·) (fun g _ _ => g) (fun g _ _ => -g)

/-- The product of two tensors, entry by entry. -/
def mul [Zero α] [Add α] [Mul α] : Traced α → Traced α → Except Error (Traced α) :=
  combine (· * ·) (fun g _ y => g * y) (fun g x _ => g * x)

/-- The square of each entry. -/
def square [Add α] [Mul α] : Traced α → Traced α :=
  map (fun x => x * x) fun g x => g * (x + x)

/-- Each entry multiplied by a number. -/
def scale [Mul α] (c : α) : Traced α → Traced α := map (· * c) fun g _ => g * c

/-- Each entry less a number. -/
def lower [Sub α] (c : α) : Traced α → Traced α := map (· - c) fun g _ => g

/-- A number less each entry. -/
def complement [Sub α] [Neg α] (c : α) : Traced α → Traced α := map (c - ·) fun g _ => -g

/-! ## Sums -/

/-- The sum of all entries. -/
def sum [Zero α] [Add α] (t : Traced α) : Traced α :=
  ⟨.scalar t.value.data.sum, fun g =>
    t.adjoint (List.replicate t.value.data.length (g.headD 0))⟩

/-- The greatest number of axes of a tensor that is summed along some of them. -/
def maxSummedAxes : Nat := 64

/-- The sums along the second axis, which vanishes. -/
def sumRows [Zero α] [Add α] (t : Traced α) : Except Error (Traced α) :=
  if maxSummedAxes < t.value.shape.length then .error .tooManySummed
  else match t.value.shape with
  | l :: n :: rest => do
    let m := volume rest
    let value ← Tensor.ofData (l :: rest) (stackSums l n m t.value.data)
    .ok ⟨value, fun g =>
      t.adjoint ((rowsOf l m g).flatMap fun row => (List.replicate n row).flatten)⟩
  | _ => .error .noAxis

/-- The Euclidean length of all entries together. Where it is zero it has no derivative, and the
entries are taken not to matter. -/
def norm [Zero α] [Add α] [Mul α] [Div α] [BEq α] [Elementary α] (t : Traced α) : Traced α :=
  let length := Elementary.norm t.value.data
  ⟨.scalar length, fun g =>
    t.adjoint (t.value.data.map fun x => g.headD 0 * (if length == 0 then 0 else x / length))⟩

/-! ## Changes of shape -/

/-- All entries as the rows of a matrix of one column. -/
def column (t : Traced α) : Traced α :=
  ⟨⟨[t.value.data.length, 1], t.value.data, by simp⟩, t.adjoint⟩

/-- The entry at a place, which must exist. -/
def entry [Zero α] (i : Nat) (t : Traced α) : Except Error (Traced α) :=
  match t.value.data[i]? with
  | some x =>
    .ok ⟨.scalar x, fun g =>
      t.adjoint ((List.range t.value.data.length).map fun j => if j = i then g.headD 0 else 0)⟩
  | none => .error .noAxis

/-- Tensors of one entry each as a vector. -/
def stack (ts : List (Traced α)) : Traced α :=
  ⟨.ofList (ts.flatMap (·.value.data)), fun g =>
    (List.zipWith (fun t x => t.adjoint [x]) ts g).flatten⟩

@[simp] theorem value_constant (t : Tensor α) : (constant t).value = t := rfl

@[simp] theorem value_coordinates (key : Int) (x : Variable α) :
    (coordinates key x).value = .ofList x.coordinates := rfl

@[simp] theorem value_map (f : α → α) (pull : α → α → α) (t : Traced α) :
    (t.map f pull).value = t.value.map f := rfl

/-- The value of an operation of two tensors is the operation of their values. -/
theorem value_combine [Zero α] [Add α] {f : α → α → α} {left right : α → α → α → α}
    {s t u : Traced α} (h : combine f left right s t = .ok u) :
    s.value.combine f t.value = .ok u.value := by
  unfold combine at h
  cases hv : s.value.combine f t.value with
  | error e => rw [hv] at h; cases h
  | ok v => rw [hv] at h; cases h; rfl

@[simp] theorem value_sum [Zero α] [Add α] (t : Traced α) :
    t.sum.value = .scalar t.value.data.sum := rfl

@[simp] theorem value_norm [Zero α] [Add α] [Mul α] [Div α] [BEq α] [Elementary α]
    (t : Traced α) : t.norm.value = .scalar (Elementary.norm t.value.data) := rfl

end Traced

end LeastSquares
