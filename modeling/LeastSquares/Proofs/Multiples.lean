import LeastSquares.LinearSolver
import LeastSquares.Proofs.Materialization

/-!
# Products of multiples

Multiplying all scalars of a matrix and all entries of a vector by constants multiplies both
products by the constants, and changes neither what is accepted nor what is refused. Each statement
is an equation of checked computations: what is computed of the multiples is the multiple of what
is computed. A product is a fold over the panels, so it is enough that one panel adds the multiple
of what it added (`foldlM_hom`). Nothing is asked of the matrix, the vector or their shapes.
-/

namespace LeastSquares

variable {α β γ : Type}

/-- A checked fold commutes with a map of states and one of elements that its steps commute with. -/
theorem foldlM_hom {β' γ' : Type} {f : β → β'} {g : γ → γ'} {step : β → γ → Except Error β}
    {step' : β' → γ' → Except Error β'} (h : ∀ b c, step' (f b) (g c) = f <$> step b c)
    (cs : List γ) (b : β) : (cs.map g).foldlM step' (f b) = f <$> cs.foldlM step b := by
  induction cs generalizing b with
  | nil => rfl
  | cons c cs ih => simp only [List.map_cons, List.foldlM_cons, h, bind_map_left, map_bind, ih]

theorem Span.slice_map (s : Span) (f : α → β) (xs : List α) :
    s.slice (xs.map f) = (s.slice xs).map f := by
  simp only [slice, List.length_map, List.map_take, List.map_drop]

/-! ## Tensors -/

section
variable {α' β' γ' : Type}

/-- A function of the entries may be applied before they are repeated. -/
theorem spreadAxes_map (f : α → β) (ms ns : List Nat) (xs : List α) :
    spreadAxes ms ns (xs.map f) = (spreadAxes ms ns xs).map f := by
  induction ms generalizing ns xs with
  | nil => rfl
  | cons m ms ih =>
    cases ns with
    | nil => rfl
    | cons n ns =>
      have hparts : (rowsOf m (volume ms) (xs.map f)).map (spreadAxes ms ns) =
          ((rowsOf m (volume ms) xs).map (spreadAxes ms ns)).map (List.map f) := by
        rw [rowsOf, runs_map, List.map_map, List.map_map]
        exact List.map_congr_left fun part _ => ih ns part
      have hhead : ∀ parts : List (List α),
          (parts.map (List.map f)).headD [] = (parts.headD []).map f := by
        rintro (_ | _) <;> rfl
      simp only [spreadAxes, hparts, hhead]
      split
      · rw [List.map_flatten]
      · rw [List.map_flatten, List.map_replicate]

namespace Tensor

theorem spread_map (f : α → β) (t : Tensor α) (target : List Nat) :
    (t.map f).spread target = (t.spread target).map f := by
  rw [spread, spread, shape_map, data_map, spreadAxes_map]
  split <;> rfl

/-- Functions that an operation commutes with may be applied before tensors are combined. -/
theorem combine_map {op : α → β → γ} {op' : α' → β' → γ'} {f : α → α'} {g : β → β'} {h : γ → γ'}
    (hop : ∀ x y, op' (f x) (g y) = h (op x y)) (s : Tensor α) (t : Tensor β) :
    (s.map f).combine op' (t.map g) = map h <$> s.combine op t := by
  have hzip : ∀ (xs : List α) (ys : List β), List.zipWith op' (xs.map f) (ys.map g) =
      (List.zipWith op xs ys).map h := by
    intro xs ys
    simp only [List.zipWith_map, List.map_zipWith, hop]
  simp only [combine, shape_map, data_map, spread_map, hzip, ← map_ofData]
  split
  · rfl
  · split <;> rfl

end Tensor

end

variable {K : Type} [CommSemiring K] (c d : K)

/-! ## Vectors -/

namespace Dense

@[simp] theorem length_smul (xs : List K) : (smul c xs).length = xs.length := List.length_map ..

theorem smul_smul (xs : List K) : smul c (smul d xs) = smul (c * d) xs := by
  simp [smul, Function.comp_def, mul_assoc]

@[simp] theorem smul_replicate_zero (n : Nat) :
    smul c (List.replicate n 0) = List.replicate n 0 := by
  simp [smul]

theorem add_smul_smul (xs ys : List K) : add (smul c xs) (smul c ys) = smul c (add xs ys) := by
  simp only [add, smul, List.zipWith_map, List.map_zipWith, mul_add]

theorem dot_smul_smul (xs ys : List K) : dot (smul c xs) (smul d ys) = c * d * dot xs ys := by
  have hmul : ∀ x y : K, c * x * (d * y) = c * d * (x * y) := fun x y => mul_mul_mul_comm c x d y
  have hsum := List.sum_map_mul_left (List.zipWith (· * ·) xs ys) id (c * d)
  rw [List.map_zipWith, List.map_id] at hsum
  simp only [dot, smul, List.zipWith_map, hmul]
  exact hsum

theorem sub_smul_smul {R : Type} [CommRing R] (c : R) (xs ys : List R) :
    sub (smul c xs) (smul c ys) = smul c (sub xs ys) := by
  simp only [sub, smul, List.zipWith_map, List.map_zipWith, mul_sub]

theorem normSq_smul (xs : List K) : normSq (smul c xs) = c * c * normSq xs :=
  dot_smul_smul c c xs xs

theorem mulVec_smul (rows : List (List K)) (x : List K) :
    mulVec (rows.map (smul c)) (smul d x) = smul (c * d) (mulVec rows x) := by
  simp only [mulVec, smul, List.map_map]
  exact List.map_congr_left fun row _ => dot_smul_smul c d row x

theorem vecMul_smul (columns : Nat) (y : List K) (rows : List (List K)) :
    vecMul columns (smul d y) (rows.map (smul c)) = smul (c * d) (vecMul columns y rows) := by
  have hrow : ∀ (a : K) (row : List K), smul (d * a) (smul c row) = smul (c * d) (smul a row) := by
    intro a row
    rw [smul_smul, smul_smul, mul_right_comm, mul_comm d c]
  have hrows : List.zipWith smul (smul d y) (rows.map (smul c)) =
      (List.zipWith smul y rows).map (smul (c * d)) := by
    rw [smul, List.zipWith_map, List.map_zipWith]
    simp only [hrow]
  rw [vecMul, hrows, ← smul_replicate_zero (c * d), List.foldl_map]
  exact List.foldl_hom _ fun acc row => add_smul_smul ..

theorem pad_smul (n : Nat) (xs : List K) : pad n (smul c xs) = smul c <$> pad n xs := by
  simp only [pad, length_smul]
  split
  · rfl
  · change _ = Except.ok (smul c _)
    rw [smul, smul, List.map_append, List.map_replicate, mul_zero]

end Dense

theorem zeros_smul (n : Int) : (zeros n : Except Error (List K)) = Dense.smul c <$> zeros n := by
  simp only [zeros]
  split
  · rfl
  · exact congrArg Except.ok (Dense.smul_replicate_zero c _).symm

/-! ## Accumulation -/

theorem stretch_smul (n : Nat) (values : List K) :
    stretch n (Dense.smul c values) = Dense.smul c <$> stretch n values := by
  unfold stretch
  rw [Dense.length_smul]
  split
  · rfl
  · match values with
    | [] | _ :: _ :: _ => rfl
    | [x] => exact congrArg Except.ok (List.map_replicate ..).symm

namespace Span

theorem slice_smul (s : Span) (xs : List K) :
    s.slice (Dense.smul c xs) = Dense.smul c (s.slice xs) := s.slice_map (c * ·) xs

/-- What is made of the multiple of a part is put where the part was. -/
theorem update_smul {s : Span} {f f' : List K → Except Error (List K)} {xs : List K}
    (h : f' (Dense.smul c (s.slice xs)) = Dense.smul c <$> f (s.slice xs)) :
    s.update f' (Dense.smul c xs) = Dense.smul c <$> s.update f xs := by
  rw [update, update, slice_smul, h, bind_map_left, map_bind, Dense.length_smul]
  refine bind_congr fun part => congrArg Except.ok ?_
  simp only [Dense.smul, List.map_append, List.map_take, List.map_drop]

theorem accumulate_smul (s : Span) (values xs : List K) :
    s.accumulate (Dense.smul c values) (Dense.smul c xs) =
      Dense.smul c <$> s.accumulate values xs := by
  refine update_smul c ?_
  rw [Dense.length_smul, stretch_smul, bind_map_left, map_bind]
  exact bind_congr fun values => congrArg Except.ok (Dense.add_smul_smul ..)

end Span

/-! ## Vectors and matrices of blocks -/

/-- An operand with a function applied to each scalar. -/
def Operand.map (f : α → β) : Operand α → Operand β
  | dense t => .dense (t.map f)
  | sparse v => .sparse (v.map f)

theorem BlockVector.dense_smul (v : BlockVector K) (n : Int) :
    (v.map (c * ·)).dense n = Dense.smul c <$> v.dense n := by
  have hdimension : (v.map (c * ·)).dimension = v.dimension := rfl
  rw [dense, dense, hdimension]
  split
  · rfl
  · rw [map_bind, pieces_map]
    conv_lhs => rw [zeros_smul c, bind_map_left]
    exact bind_congr fun dense => foldlM_hom (fun acc piece => piece.1.accumulate_smul ..) ..

theorem Operand.map_ofList (xs : List K) :
    (dense (.ofList xs)).map (c * ·) = dense (.ofList (Dense.smul c xs)) :=
  congrArg dense (Tensor.map_ofList ..)

@[simp] theorem Operand.map_one_mul (x : Operand K) : x.map (1 * ·) = x := by
  cases x <;> simp [map, Tensor.map, BlockVector.map]

theorem Operand.resolve_smul (required : Int) (x : Operand K) :
    (x.map (c * ·)).resolve required = Dense.smul c <$> x.resolve required := by
  cases x with
  | dense t =>
    simp only [map, resolve, Tensor.shape_map]
    split
    · split <;> rfl
    · rfl
  | sparse v => exact v.dense_smul c _

namespace BlockMatrix

variable (A : BlockMatrix K)

omit [CommSemiring K] in
/-- A function of the scalars acts on what the panels hold. -/
theorem panels_map (f : K → K) : (A.map f).panels =
    A.panels.map fun panel => (panel.1, panel.2.map (List.map f)) := by
  simp only [panels, map, runs_map, List.zipWith_map_right, List.map_zipWith, rowsOf]

theorem applyPanel_smul (x acc : List K) (panel : Tile × List (List K)) :
    applyPanel (Dense.smul d x) (Dense.smul (c * d) acc)
        (panel.1, panel.2.map (Dense.smul c)) =
      Dense.smul (c * d) <$> applyPanel x acc panel := by
  simp only [applyPanel, Span.slice_smul, Dense.length_smul, Dense.mulVec_smul]
  split
  · exact Span.accumulate_smul ..
  · rfl

theorem adjointPanel_smul (y acc : List K) (panel : Tile × List (List K)) :
    adjointPanel (Dense.smul d y) (Dense.smul (c * d) acc)
        (panel.1, panel.2.map (Dense.smul c)) =
      Dense.smul (c * d) <$> adjointPanel y acc panel := by
  simp only [adjointPanel, Span.slice_smul, Dense.length_smul, Dense.vecMul_smul]
  split
  · exact Span.accumulate_smul ..
  · rfl

/-- The product of multiples is the multiple of the product. -/
theorem apply_smul (x : Operand K) :
    (A.map (c * ·)).apply (x.map (d * ·)) = Dense.smul (c * d) <$> A.apply x := by
  have hcolumns : (A.map (c * ·)).columns = A.columns := rfl
  have hrows : (A.map (c * ·)).rows = A.rows := rfl
  rw [apply, apply, hcolumns, hrows, Operand.resolve_smul, bind_map_left, map_bind]
  refine bind_congr fun x => ?_
  rw [map_bind, panels_map]
  conv_lhs => rw [zeros_smul (c * d), bind_map_left]
  exact bind_congr fun start => foldlM_hom (applyPanel_smul c d x) ..

/-- The transposed product of multiples is the multiple of the transposed product. -/
theorem adjoint_smul (y : Operand K) :
    (A.map (c * ·)).adjoint (y.map (d * ·)) = Dense.smul (c * d) <$> A.adjoint y := by
  have hcolumns : (A.map (c * ·)).columns = A.columns := rfl
  have hrows : (A.map (c * ·)).rows = A.rows := rfl
  rw [adjoint, adjoint, hcolumns, hrows, Operand.resolve_smul, bind_map_left, map_bind]
  refine bind_congr fun y => ?_
  rw [map_bind, panels_map]
  conv_lhs => rw [zeros_smul (c * d), bind_map_left]
  exact bind_congr fun start => foldlM_hom (adjointPanel_smul c d y) ..

end BlockMatrix

end LeastSquares
