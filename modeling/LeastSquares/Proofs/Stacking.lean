import LeastSquares.Graph
import LeastSquares.Proofs.Products

/-!
# Stacked linear models

A regular linear model, whose matrix has no more rows than its bias has entries
(`LinearModel.Regular`), takes vectors to lists of as many values as its bias
(`LinearModel.product`). A model above another one has the products and the biases of both, one
below the other (`LinearModel.above`), and this is what pushing onto a stack makes
(`Graph.Stack.Holds.push`). So the linear model of a graph takes every vector to the concatenation
of what the models of its factors make of it (`Graph.linearize_holds`).
-/

open scoped Matrix

namespace LeastSquares

variable {K : Type}

/-- A listing falls into that of its first part and that of the rest. -/
theorem ofFn_eq_append {β : Type} {a b c : Nat} {f g h : Nat → β} (hc : c = a + b)
    (hg : ∀ i < a, f i = g i) (hh : ∀ i < b, f (a + i) = h i) :
    List.ofFn (fun i : Fin c => f i) =
      List.ofFn (fun i : Fin a => g i) ++ List.ofFn (fun i : Fin b => h i) := by
  subst hc
  rw [List.ofFn_add]
  congr 2
  · funext i
    exact hg i i.2
  · funext i
    exact hh i i.2

namespace BlockVector

section
variable [AddCommMonoid K]

/-- A materialized vector as one block that begins at a position. -/
def blockAt (v : BlockVector K) (k : Int) : BlockVector K :=
  ⟨List.ofFn fun i : Fin v.dimension.toNat => v.entry (i : Nat), [⟨k, k + v.dimension⟩]⟩

@[simp] theorem dimension_blockAt (v : BlockVector K) (k : Int) :
    (v.blockAt k).dimension = k + v.dimension := rfl

variable {v : BlockVector K} {k : Int}

theorem Regular.blockAt (h : v.Regular) (hk : 0 ≤ k) : (v.blockAt k).Regular := by
  have hd := h.dimension_nonneg
  refine ⟨?_, fun s hs => ?_⟩
  · simp only [WellFormed, BlockVector.blockAt, Span.length, List.map_cons, List.map_nil,
      total_cons, total_nil, List.length_ofFn]
    omega
  · rw [List.mem_singleton.1 hs]
    exact ⟨hk, Int.add_nonneg hk hd⟩

/-- A block has the entries of the vector, moved. -/
theorem Regular.entry_blockAt (h : v.Regular) (k i : Int) :
    (v.blockAt k).entry i = v.entry (i - k) := by
  have hd := h.dimension_nonneg
  have hlen : (v.blockAt k).scalars.length ≤ (⟨k, k + v.dimension⟩ : Span).length := by
    simp only [BlockVector.blockAt, List.length_ofFn, Span.length]
    omega
  have hentry : (v.blockAt k).entry i = (⟨k, k + v.dimension⟩ : Span).pick 0
      ((v.blockAt k).scalars.take (⟨k, k + v.dimension⟩ : Span).length) i := add_zero _
  rw [hentry, List.take_of_length_le hlen, Span.pick]
  split
  · rename_i hi
    dsimp only at hi ⊢
    rw [List.getD_eq_getElem _ _ (by simp only [BlockVector.blockAt, List.length_ofFn]; omega)]
    simp only [BlockVector.blockAt, List.getElem_ofFn]
    congr 1
    omega
  · rename_i hi
    dsimp only at hi
    exact (h.entry_eq_zero (by omega)).symm

/-- The scalars of the block are the materialized vector, which the block has a position for. -/
theorem Regular.dense_eq_blockAt (h : v.Regular) (k : Int) :
    v.dense v.dimension = .ok (v.blockAt k).scalars ∧
      ofBlock (v.blockAt k).scalars ⟨k, k + v.dimension⟩ = .ok (v.blockAt k) := by
  have hd := h.dimension_nonneg
  have hlen : (⟨k, k + v.dimension⟩ : Span).length = (v.blockAt k).scalars.length := by
    simp only [BlockVector.blockAt, List.length_ofFn, Span.length]
    omega
  exact ⟨h.dense_eq (le_refl _), if_pos hlen⟩

end

end BlockVector

/-- A matrix moved below another one, which has at most `k` rows. -/
theorem BlockMatrix.Level.rows_add_shiftRows {A B : BlockMatrix K} (hA : A.Level)
    (hB : B.Level) {k : Int} (hk : 0 ≤ k) (hrows : A.rows ≤ k) :
    (A + B.shiftRows k).rows ≤ k + B.rows ∧
      (A.rows = k → (A + B.shiftRows k).rows = k + B.rows) := by
  have hpos := hA.rows_nonneg
  have hpos' := hB.rows_nonneg
  rw [hA.rows_add (hB.shiftRows hk).toAdmissible]
  by_cases htiles : B.tiles = []
  · have hzero : B.rows = 0 := by simp [rows, htiles]
    have hzero' : (B.shiftRows k).rows = 0 := by simp [rows, htiles]
    omega
  · rw [rows_shiftRows htiles]
    omega

/-- The product of a row with a vector. -/
def BlockMatrix.rowProduct [NonUnitalNonAssocSemiring K] {n : Nat} (A : BlockMatrix K)
    (x : Fin n → K) (i : Int) : K := ∑ j : Fin n, A.entry i j * x j

theorem BlockMatrix.Regular.rowProduct_eq_zero [NonUnitalNonAssocSemiring K] {n : Nat}
    {A : BlockMatrix K} (hA : A.Regular) (x : Fin n → K) {i : Int} (hi : i < 0 ∨ A.rows ≤ i) :
    A.rowProduct x i = 0 := by
  refine Finset.sum_eq_zero fun j _ => ?_
  rw [hA.entry_eq_zero (by omega), zero_mul]

/-- The rows of a matrix above another one that was moved down. -/
theorem BlockMatrix.Regular.rowProduct_add_shiftRows [NonUnitalNonAssocSemiring K] {n : Nat}
    {A B : BlockMatrix K} (hA : A.Regular) (hB : B.Regular) (k : Int) (x : Fin n → K) (i : Int) :
    (A + B.shiftRows k).rowProduct x i = A.rowProduct x i + B.rowProduct x (i - k) := by
  simp only [rowProduct, hA.wellFormed.entry_add, hB.solid.entry_shiftRows, add_mul,
    Finset.sum_add_distrib]

namespace LinearModel

instance : Inhabited (LinearModel K) := ⟨⟨0, 0⟩⟩

/-- A model of records without negative bounds whose matrix has no more rows than its bias has
entries. -/
structure Admissible (model : LinearModel K) : Prop where
  matrix : model.matrix.Admissible
  bias : model.bias.Regular
  rows_le : model.matrix.rows ≤ model.bias.dimension

/-- An admissible model whose matrix steps over no rows. -/
structure Level (model : LinearModel K) : Prop where
  matrix : model.matrix.Level
  bias : model.bias.Regular
  rows_le : model.matrix.rows ≤ model.bias.dimension

/-- An admissible model whose matrix steps over nothing. -/
structure Regular (model : LinearModel K) : Prop where
  matrix : model.matrix.Regular
  bias : model.bias.Regular
  rows_le : model.matrix.rows ≤ model.bias.dimension

theorem Admissible.level {model : LinearModel K} (h : model.Admissible)
    (hs : ∀ t ∈ model.matrix.tiles, t.rows.Solid) : model.Level :=
  ⟨⟨h.matrix, hs⟩, h.bias, h.rows_le⟩

theorem Admissible.regular {model : LinearModel K} (h : model.Admissible)
    (hs : model.matrix.Solid) : model.Regular := ⟨h.matrix.regular hs, h.bias, h.rows_le⟩

theorem Level.regular {model : LinearModel K} (h : model.Level) (hs : model.matrix.Solid) :
    model.Regular := ⟨h.matrix.regular hs, h.bias, h.rows_le⟩

theorem Regular.level {model : LinearModel K} (h : model.Regular) : model.Level :=
  ⟨h.matrix.level, h.bias, h.rows_le⟩

/-- The number of rows. -/
def height (model : LinearModel K) : Nat := model.bias.dimension.toNat

section
variable [NonUnitalNonAssocSemiring K] {n : Nat}

/-- The product of the matrix with a vector, as long as the bias. -/
def product (model : LinearModel K) (x : Fin n → K) : List K :=
  List.ofFn fun i : Fin model.height => model.matrix.rowProduct x (i : Nat)

/-- The entries of the bias. -/
def target (model : LinearModel K) : List K :=
  List.ofFn fun i : Fin model.height => model.bias.entry (i : Nat)

@[simp] theorem length_product (model : LinearModel K) (x : Fin n → K) :
    (model.product x).length = model.height := List.length_ofFn

@[simp] theorem length_target (model : LinearModel K) : model.target.length = model.height :=
  List.length_ofFn

end

/-- What a model has for its residual at a vector: its product less its bias. -/
def residual [NonUnitalNonAssocRing K] {n : Nat} (model : LinearModel K) (x : Fin n → K) : List K :=
  Dense.sub (model.product x) model.target

/-- The residuals of models, one after the other. -/
theorem sub_flatten [NonUnitalNonAssocRing K] {n : Nat} (models : List (LinearModel K))
    (x : Fin n → K) :
    Dense.sub (models.map (·.product x)).flatten (models.map (·.target)).flatten =
      models.flatMap (·.residual x) := by
  induction models with
  | nil => rfl
  | cons model models ih =>
    have hlen : (model.product x).length = model.target.length := by
      rw [length_product, length_target]
    rw [List.map_cons, List.map_cons, List.flatten_cons, List.flatten_cons, List.flatMap_cons, ← ih]
    exact List.zipWith_append hlen

section
variable [CommSemiring K] {model : LinearModel K} {n : Nat}

/-- The library computes the product where the matrix has as many rows as the bias has entries. -/
theorem Regular.apply_eq_product (h : model.Regular)
    (hrows : model.matrix.rows = model.bias.dimension) (hn : model.matrix.columns ≤ n)
    (x : Fin n → K) :
    model.matrix.apply (.dense (.ofList (List.ofFn x))) = .ok (model.product x) := by
  rw [h.matrix.apply_eq (f := x) (Operand.resolve_ofList (by simpa using hn)) hn, product, height,
    ← hrows]
  rfl

/-- The library computes the entries of the bias. -/
theorem Regular.dense_eq_target (h : model.Regular) :
    model.bias.dense model.bias.dimension = .ok model.target := h.bias.dense_eq (le_refl _)

/-- As an operand of the transposed matrix the bias is its entries. -/
theorem Level.resolve_bias (h : model.Level) :
    (Operand.sparse model.bias).resolve model.matrix.rows = .ok model.target := by
  rw [Operand.resolve, max_eq_right h.rows_le]
  exact h.bias.dense_eq (le_refl _)

/-- So it is as the right-hand side of a solve. -/
theorem Level.rightHandSide_bias (h : model.Level) :
    (Operand.sparse model.bias).rightHandSide model.matrix.rows = .ok (.ofList model.target) := by
  rw [Operand.rightHandSide, max_eq_right h.rows_le, h.bias.dense_eq (le_refl _)]
  rfl

/-- The squared length of the bias, as the library computes it. -/
theorem Regular.normSq_bias (h : model.Regular) :
    model.bias.normSq = .ok (Dense.normSq model.target) := by
  rw [BlockVector.normSq, h.dense_eq_target]
  rfl

end

/-! ## One model below another -/

section
variable [CommSemiring K] {top model : LinearModel K}

/-- A model above another one, which begins behind all entries of the bias. -/
def above (top model : LinearModel K) : LinearModel K :=
  ⟨top.matrix + model.matrix.shiftRows top.bias.dimension,
    top.bias + model.bias.blockAt top.bias.dimension⟩

theorem dimension_above (h : top.bias.Regular) (hm : model.bias.Regular) :
    (top.above model).bias.dimension = top.bias.dimension + model.bias.dimension := by
  have hpos := h.dimension_nonneg
  have hpos' := hm.dimension_nonneg
  rw [above, h.dimension_add (hm.blockAt hpos), BlockVector.dimension_blockAt]
  omega

theorem height_above (h : top.bias.Regular) (hm : model.bias.Regular) :
    (top.above model).height = top.height + model.height := by
  have hpos := h.dimension_nonneg
  have hpos' := hm.dimension_nonneg
  rw [height, dimension_above h hm, height, height]
  omega

/-- The matrix below reaches as far as it does by itself. -/
theorem Level.rows_above (h : top.Level) (hm : model.Level) :
    (top.above model).matrix.rows ≤ top.bias.dimension + model.matrix.rows ∧
      (top.matrix.rows = top.bias.dimension →
        (top.above model).matrix.rows = top.bias.dimension + model.matrix.rows) :=
  h.matrix.rows_add_shiftRows hm.matrix h.bias.dimension_nonneg h.rows_le

theorem Level.columns_above (h : top.Level) (hm : model.Level) :
    (top.above model).matrix.columns = max top.matrix.columns model.matrix.columns := by
  rw [above, h.matrix.columns_add (hm.matrix.shiftRows h.bias.dimension_nonneg).toAdmissible,
    BlockMatrix.columns_shiftRows]

theorem Level.above (h : top.Level) (hm : model.Level) : (top.above model).Level := by
  have hpos := h.bias.dimension_nonneg
  refine ⟨h.matrix.add (hm.matrix.shiftRows hpos), h.bias.add (hm.bias.blockAt hpos), ?_⟩
  have hrows := (h.rows_above hm).1
  have hle := hm.rows_le
  rw [dimension_above h.bias hm.bias]
  omega

theorem Regular.above (h : top.Regular) (hm : model.Regular) : (top.above model).Regular :=
  (h.level.above hm.level).regular (h.matrix.solid.add (hm.matrix.solid.shiftRows _))

/-- Level models below a level model are one. -/
theorem Level.foldl_above {models : List (LinearModel K)} (h : top.Level)
    (hm : ∀ m ∈ models, m.Level) : (models.foldl LinearModel.above top).Level := by
  induction models generalizing top with
  | nil => exact h
  | cons model models ih =>
    have hmodel := hm model (List.mem_cons_self ..)
    exact ih (h.above hmodel) fun m hmem => hm m (List.mem_cons_of_mem _ hmem)

/-- Models one below the other. -/
def stacked (models : List (LinearModel K)) : LinearModel K :=
  models.foldl LinearModel.above ⟨0, 0⟩

omit [CommSemiring K] in
theorem Level.empty : (⟨0, 0⟩ : LinearModel K).Level :=
  ⟨BlockMatrix.Regular.zero.level, .zero, le_rfl⟩

theorem level_stacked {models : List (LinearModel K)} (hm : ∀ m ∈ models, m.Level) :
    (stacked models).Level := Level.empty.foldl_above hm

/-- Products come one below the other. -/
theorem Regular.product_above (h : top.Regular) (hm : model.Regular) {n : Nat} (x : Fin n → K) :
    (top.above model).product x = top.product x ++ model.product x := by
  have hpos := h.bias.dimension_nonneg
  have hrows := h.rows_le
  refine ofFn_eq_append (f := fun i => (top.above model).matrix.rowProduct x i)
    (g := fun i => top.matrix.rowProduct x i) (h := fun i => model.matrix.rowProduct x i)
    (height_above h.bias hm.bias) (fun i hi => ?_) fun i hi => ?_
  · rw [height] at hi
    rw [LinearModel.above, h.matrix.rowProduct_add_shiftRows hm.matrix,
      hm.matrix.rowProduct_eq_zero x (by omega), add_zero]
  · have hi : ((top.height + i : Nat) : Int) - top.bias.dimension = (i : Nat) := by
      rw [height]
      omega
    rw [LinearModel.above, h.matrix.rowProduct_add_shiftRows hm.matrix,
      h.matrix.rowProduct_eq_zero x (by omega), zero_add, hi]

/-- Biases come one below the other. -/
theorem target_above (h : top.bias.Regular) (hm : model.bias.Regular) :
    (top.above model).target = top.target ++ model.target := by
  have hpos := h.dimension_nonneg
  refine ofFn_eq_append (f := fun i => (top.above model).bias.entry i)
    (g := fun i => top.bias.entry i) (h := fun i => model.bias.entry i)
    (height_above h hm) (fun i hi => ?_) fun i hi => ?_
  · rw [height] at hi
    rw [above, h.wellFormed.entry_add, hm.entry_blockAt, hm.entry_eq_zero (by omega), add_zero]
  · have hi : ((top.height + i : Nat) : Int) - top.bias.dimension = (i : Nat) := by
      rw [height]
      omega
    rw [above, h.wellFormed.entry_add, hm.entry_blockAt, h.entry_eq_zero (by omega), zero_add, hi]

end

end LinearModel

namespace Graph

/-- The cost of a graph is the sum of what its factors cost. -/
theorem cost_eq_ok [AddMonoid K] {g : Graph K} {s : Assignment K} {c : K} : g.cost s = .ok c ↔
    ∃ cs, List.Forall₂ (fun f c => f.cost s = .ok c) g.factors cs ∧ cs.sum = c := by
  have hfold : ∀ (cs : List K) (sum : K),
      cs.foldlM (fun sum c => Except.ok (sum + c)) sum = (.ok (sum + cs.sum) : Except Error K) := by
    intro cs
    induction cs with
    | nil => exact fun sum => congrArg Except.ok (add_zero sum).symm
    | cons c cs ih =>
      intro sum
      rw [List.foldlM_cons, List.sum_cons, ← add_assoc]
      exact ih (sum + c)
  rw [cost, foldlM_bind_eq_ok]
  refine exists_congr fun cs => and_congr_right fun _ => ?_
  rw [hfold, zero_add, Except.ok.injEq]

/-- What a stack holds, having been given some models. -/
structure Stack.Holds [NonUnitalNonAssocSemiring K] (stack : Stack K)
    (models : List (LinearModel K)) : Prop where
  regular : stack.model.Regular
  height_eq : stack.height = stack.model.bias.dimension
  product_eq : ∀ {n : Nat} (x : Fin n → K),
    stack.model.product x = (models.map (·.product x)).flatten
  target_eq : stack.model.target = (models.map (·.target)).flatten
  columns_le : ∀ {n : Int}, 0 ≤ n → (∀ model ∈ models, model.matrix.columns ≤ n) →
    stack.model.matrix.columns ≤ n
  rows_eq : (∀ model ∈ models, model.matrix.rows = model.bias.dimension) →
    stack.model.matrix.rows = stack.model.bias.dimension

theorem Stack.Holds.residual_eq [NonUnitalNonAssocRing K] {stack : Stack K}
    {models : List (LinearModel K)} (h : stack.Holds models) {n : Nat} (x : Fin n → K) :
    stack.model.residual x = models.flatMap (·.residual x) := by
  rw [LinearModel.residual, h.product_eq, h.target_eq, LinearModel.sub_flatten]

variable [CommSemiring K]

theorem Stack.Holds.empty : (Stack.empty : Stack K).Holds [] where
  regular := ⟨.zero, .zero, le_refl 0⟩
  height_eq := rfl
  product_eq _ := rfl
  target_eq := rfl
  columns_le h _ := h
  rows_eq _ := rfl

/-- A model of a regular bias is pushed unless its matrix cannot be moved. -/
theorem Stack.push_eq_map (stack : Stack K) {model : LinearModel K} (h : model.bias.Regular) :
    stack.push model = (model.matrix.moveDown stack.height).map fun matrix =>
      ⟨⟨stack.model.matrix + matrix, stack.model.bias + model.bias.blockAt stack.height⟩,
        stack.height + model.bias.dimension⟩ := by
  obtain ⟨hdense, hofBlock⟩ := h.dense_eq_blockAt stack.height
  rw [push]
  cases model.matrix.moveDown stack.height with
  | error => rfl
  | ok => simp only [hdense, hofBlock, bind, Except.bind, Except.map]

/-- To push a model is to put the stack above it. -/
theorem Stack.push_eq {top model : LinearModel K} (hm : model.Level) :
    push ⟨top, top.bias.dimension⟩ model =
      .ok ⟨top.above model, top.bias.dimension + model.bias.dimension⟩ := by
  rw [push_eq_map _ hm.bias, hm.matrix.wellFormed.moveDown_eq hm.matrix.rows_solid]
  rfl

/-- To push models is to put the stack above them, one after the other. -/
theorem Stack.foldlM_push {models : List (LinearModel K)} (hm : ∀ m ∈ models, m.Level)
    {top : LinearModel K} (h : top.Level) :
    models.foldlM push ⟨top, top.bias.dimension⟩ =
      .ok ⟨models.foldl LinearModel.above top,
        (models.foldl LinearModel.above top).bias.dimension⟩ := by
  induction models generalizing top with
  | nil => rfl
  | cons model models ih =>
    have hmodel := hm model (List.mem_cons_self ..)
    have hrest := ih (fun m hmem => hm m (List.mem_cons_of_mem _ hmem)) (h.above hmodel)
    rw [LinearModel.dimension_above h.bias hmodel.bias] at hrest
    exact bind_eq_ok.2 ⟨_, push_eq hmodel, hrest⟩

/-- A model below a stack. -/
theorem Stack.Holds.push {stack : Stack K} {models : List (LinearModel K)}
    (h : stack.Holds models) {model : LinearModel K} (hm : model.Regular) :
    ∃ stack', stack.push model = .ok stack' ∧ stack'.Holds (models ++ [model]) := by
  have hpush : Stack.push ⟨stack.model, stack.model.bias.dimension⟩ model = _ :=
    Stack.push_eq hm.level
  rw [← h.height_eq] at hpush
  refine ⟨_, hpush, h.regular.above hm, ?_, fun x => ?_, ?_, fun hn hcolumns => ?_, fun hall => ?_⟩
  · rw [LinearModel.dimension_above h.regular.bias hm.bias, h.height_eq]
  · rw [h.regular.product_above hm, h.product_eq, List.map_append, List.flatten_append,
      List.map_singleton, List.flatten_singleton]
  · rw [LinearModel.target_above h.regular.bias hm.bias, h.target_eq, List.map_append,
      List.flatten_append, List.map_singleton, List.flatten_singleton]
  · rw [h.regular.level.columns_above hm.level]
    refine max_le (h.columns_le hn fun m hm => ?_) ?_
    · exact hcolumns m (List.mem_append_left _ hm)
    · exact hcolumns model (List.mem_append_right _ (List.mem_singleton_self _))
  · have htight := h.rows_eq fun m hm => hall m (List.mem_append_left _ hm)
    rw [LinearModel.dimension_above h.regular.bias hm.bias,
      (h.regular.level.rows_above hm.level).2 htight,
      hall model (List.mem_append_right _ (List.mem_singleton_self _))]

/-- Models below a stack, one after the other. -/
theorem Stack.Holds.foldlM_push {models : List (LinearModel K)} (hm : ∀ m ∈ models, m.Regular) :
    ∀ {stack : Stack K} {above : List (LinearModel K)}, stack.Holds above →
      ∃ stack', models.foldlM Stack.push stack = .ok stack' ∧ stack'.Holds (above ++ models) := by
  induction models with
  | nil =>
    intro stack above hstack
    exact ⟨stack, rfl, by rwa [List.append_nil]⟩
  | cons model models ih =>
    intro stack above hstack
    obtain ⟨stack', hpush, hholds⟩ := hstack.push (hm model (List.mem_cons_self ..))
    obtain ⟨final, hfinal, hholds'⟩ := ih (fun m h => hm m (List.mem_cons_of_mem _ h)) hholds
    rw [List.append_assoc, List.singleton_append] at hholds'
    exact ⟨final, bind_eq_ok.2 ⟨stack', hpush, hfinal⟩, hholds'⟩

/-- Models one below the other are held by the stack of them. -/
theorem Stack.Holds.stacked {models : List (LinearModel K)} (hm : ∀ m ∈ models, m.Regular) :
    Stack.Holds ⟨.stacked models, (LinearModel.stacked models).bias.dimension⟩ models := by
  obtain ⟨stack, hfold, hholds⟩ := Stack.Holds.foldlM_push hm Stack.Holds.empty
  have hstacked := Stack.foldlM_push (fun m hmem => (hm m hmem).level) LinearModel.Level.empty
  cases hfold.symm.trans hstacked
  exact hholds

omit [CommSemiring K] in
/-- The linear model of a graph is made by pushing those of its factors. -/
theorem linearize_eq_ok [Zero K] [Add K] {g : Graph K} {s : Assignment K} {model : LinearModel K} :
    g.linearize s = .ok model ↔ ∃ (models : List (LinearModel K)) (stack : Stack K),
      List.Forall₂ (fun f m => f.linearize s = .ok m) g.factors models ∧
      models.foldlM Stack.push .empty = .ok stack ∧ stack.model = model := by
  rw [linearize, bind_eq_ok]
  constructor
  · rintro ⟨stack, hstack, hmodel⟩
    obtain ⟨models, hmodels, hfold⟩ := foldlM_bind_eq_ok.1 hstack
    exact ⟨models, stack, hmodels, hfold, Except.ok.inj hmodel⟩
  · rintro ⟨models, stack, hmodels, hfold, rfl⟩
    exact ⟨stack, foldlM_bind_eq_ok.2 ⟨models, hmodels, hfold⟩, rfl⟩

/-- The linear model of a graph is made of the models of its factors, one below the other. -/
theorem linearize_eq_stacked {g : Graph K} {s : Assignment K} {models : List (LinearModel K)}
    (h : List.Forall₂ (fun f model => f.linearize s = .ok model) g.factors models)
    (hlevel : ∀ model ∈ models, model.Level) : g.linearize s = .ok (.stacked models) :=
  linearize_eq_ok.2 ⟨models, _, h, Stack.foldlM_push hlevel .empty, rfl⟩

/-- The linear model of a graph stacks those of its factors. -/
theorem linearize_holds {g : Graph K} {s : Assignment K} {models : List (LinearModel K)}
    (h : List.Forall₂ (fun f model => f.linearize s = .ok model) g.factors models)
    (hregular : ∀ model ∈ models, model.Regular) :
    ∃ stack : Stack K, g.linearize s = .ok stack.model ∧ stack.Holds models := by
  have hmodel := linearize_eq_stacked h fun m hm => (hregular m hm).level
  exact ⟨_, hmodel, .stacked hregular⟩

end Graph

end LeastSquares
