import LeastSquares.Error

/-!
# Dense vectors as lists

The dense side of the library: vectors are lists, matrices are lists of rows. The operations read
only the arithmetic they use, so the same definitions run in floating point and are reasoned about
in an ordered field.

A buffer that several blocks share is cut into consecutive runs (`runs`); nothing is lost when the
lengths add up to the buffer (`flatten_runs`). A block is written by adding its values into the
part of an axis that its span selects (`Span.accumulate`), and a single value is first repeated
over that part (`stretch`). What is accumulated on a list keeps the length of the list
(`length_accumulate`).
-/

namespace LeastSquares

variable {α β γ : Type}

/-! ## Runs of a buffer -/

/-- The sum of lengths. -/
def total (ns : List Nat) : Nat := ns.foldr (· + ·) 0

@[simp] theorem total_nil : total [] = 0 := rfl

@[simp] theorem total_cons (n : Nat) (ns : List Nat) : total (n :: ns) = n + total ns := rfl

/-- Cuts a buffer into consecutive runs of the given lengths. -/
def runs : List Nat → List α → List (List α)
  | [], _ => []
  | n :: ns, xs => xs.take n :: runs ns (xs.drop n)

@[simp] theorem length_runs (ns : List Nat) (xs : List α) : (runs ns xs).length = ns.length := by
  induction ns generalizing xs with
  | nil => rfl
  | cons n ns ih => simp [runs, ih]

/-- Runs whose lengths add up to the buffer make up the buffer. -/
theorem flatten_runs {ns : List Nat} {xs : List α} (h : total ns = xs.length) :
    (runs ns xs).flatten = xs := by
  induction ns generalizing xs with
  | nil => simpa [runs] using h.symm
  | cons n ns ih =>
    have hd : total ns = (xs.drop n).length := by
      simp only [total_cons] at h
      simp only [List.length_drop]
      omega
    simp [runs, ih hd, List.take_append_drop]

/-- The runs of a concatenation are those of the first part, then those of the second. -/
theorem runs_append {ms ns : List Nat} {xs ys : List α} (h : total ms = xs.length) :
    runs (ms ++ ns) (xs ++ ys) = runs ms xs ++ runs ns ys := by
  induction ms generalizing xs with
  | nil => simp_all [runs, List.eq_nil_of_length_eq_zero h.symm]
  | cons m ms ih =>
    simp only [total_cons] at h
    have hd : total ms = (xs.drop m).length := by
      simp only [List.length_drop]
      omega
    have hm : m ≤ xs.length := by omega
    simp [runs, ← ih hd, List.take_append_of_le_length hm, List.drop_append_of_le_length hm]

/-- The runs of a mapped buffer are the mapped runs. -/
theorem runs_map (f : α → β) (ns : List Nat) (xs : List α) :
    runs ns (xs.map f) = (runs ns xs).map (List.map f) := by
  induction ns generalizing xs with
  | nil => rfl
  | cons n ns ih => simp [runs, ← ih, List.map_take, List.map_drop]

/-- A buffer read as `r` rows of `c` entries, the last index varying fastest. -/
def rowsOf (r c : Nat) (xs : List α) : List (List α) := runs (List.replicate r c) xs

@[simp] theorem length_rowsOf (r c : Nat) (xs : List α) : (rowsOf r c xs).length = r := by
  simp [rowsOf]

/-! ## Accumulation -/

/-- A vector of `n` zeros, for a size that may come out negative. -/
def zeros [Zero α] (n : Int) : Except Error (List α) :=
  if n < 0 then .error .negativeSize else .ok (List.replicate n.toNat 0)

/-- Fits values to `n` places: as many values are kept, a single one is repeated. -/
def stretch (n : Nat) (values : List α) : Except Error (List α) :=
  if values.length = n then .ok values
  else match values with
    | [x] => .ok (List.replicate n x)
    | _ => .error .lengthMismatch

namespace Span

/-- Replaces the part of a list that the span selects by what `f` makes of it. -/
def update (s : Span) (f : List α → Except Error (List α)) (xs : List α) :
    Except Error (List α) := do
  let part ← f (s.slice xs)
  .ok (xs.take (s.lower xs.length) ++ part ++ xs.drop (s.lower xs.length + s.extent xs.length))

/-- Adds values into the part of a list that the span selects. -/
def accumulate [Add α] (s : Span) (values xs : List α) : Except Error (List α) :=
  s.update (fun part => do .ok (List.zipWith (· + ·) part (← stretch part.length values))) xs

end Span

theorem length_stretch {n : Nat} {values ys : List α} (h : stretch n values = .ok ys) :
    ys.length = n := by
  unfold stretch at h
  split at h
  · cases h; assumption
  · split at h <;> cases h
    simp

/-- As many values as there are places are left alone. -/
theorem stretch_self (values : List α) : stretch values.length values = .ok values := by
  simp [stretch]

/-- An update that keeps the length of the selected part keeps the length of the list. -/
theorem Span.length_update {s : Span} {f : List α → Except Error (List α)} {xs ys : List α}
    (hf : ∀ zs, f (s.slice xs) = .ok zs → zs.length = (s.slice xs).length)
    (h : s.update f xs = .ok ys) : ys.length = xs.length := by
  unfold Span.update at h
  cases hp : f (s.slice xs) with
  | error e => rw [hp] at h; cases h
  | ok part =>
    rw [hp] at h
    cases h
    have := hf part hp
    simp only [Span.slice, List.length_take, List.length_drop] at this
    simp only [List.length_append, List.length_take, List.length_drop, this]
    omega

/-- Accumulation keeps the length of the list. -/
theorem Span.length_accumulate [Add α] {s : Span} {values xs ys : List α}
    (h : s.accumulate values xs = .ok ys) : ys.length = xs.length := by
  refine Span.length_update (fun zs hz => ?_) h
  cases hs : stretch (s.slice xs).length values with
  | error e => simp only [hs] at hz; cases hz
  | ok vs =>
    simp only [hs] at hz
    cases hz
    simp [length_stretch hs]

/-! ## Vector algebra -/

namespace Dense

/-- The sum of two vectors. -/
def add [Add α] (xs ys : List α) : List α := List.zipWith (· + ·) xs ys

/-- The difference of two vectors. -/
def sub [Sub α] (xs ys : List α) : List α := List.zipWith (· - ·) xs ys

/-- A vector multiplied by a scalar. -/
def smul [Mul α] (c : α) (xs : List α) : List α := xs.map (c * ·)

/-- The inner product. -/
def dot [Zero α] [Add α] [Mul α] (xs ys : List α) : α := (List.zipWith (· * ·) xs ys).sum

/-- The squared length of a vector. -/
def normSq [Zero α] [Add α] [Mul α] (xs : List α) : α := dot xs xs

/-- The `i`-th unit vector of length `n`. -/
def unit [Zero α] [One α] (n i : Nat) : List α :=
  (List.range n).map fun j => if j = i then 1 else 0

/-- The product of a matrix, given by its rows, with a vector. -/
def mulVec [Zero α] [Add α] [Mul α] (rows : List (List α)) (x : List α) : List α :=
  rows.map (dot · x)

/-- The product of a transposed matrix of `columns` columns with a vector: the rows weighted by
the entries of the vector. -/
def vecMul [Zero α] [Add α] [Mul α] (columns : Nat) (y : List α) (rows : List (List α)) :
    List α :=
  (List.zipWith smul y rows).foldl add (List.replicate columns 0)

/-- A vector followed by zeros up to length `n`, refused if it is longer already. -/
def pad [Zero α] (n : Nat) (xs : List α) : Except Error (List α) :=
  if n < xs.length then .error (.productLength xs.length n)
  else .ok (xs ++ List.replicate (n - xs.length) 0)

end Dense

end LeastSquares
