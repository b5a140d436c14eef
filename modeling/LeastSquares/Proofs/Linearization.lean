import LeastSquares.Proofs.Jacobian
import LeastSquares.Proofs.Stacking

/-!
# Linear models of residuals

Where variables stay in place along a tangent vector of length zero, a residual is linearized at the
assignment itself (`perturb_eq`). The model of assembled blocks takes a joint tangent vector to what
its blocks make of the parts (`assemble_spec`), and every linearization that gives a model assembles
it of such blocks (`ResidualFactor.Linearizes.spec`). So the linear model of a residual on points of
vector spaces takes a joint tangent vector to the change that the gradients of its entries predict,
and its bias is the negated residual (`ResidualFactor.linearize_spec`).
-/

namespace LeastSquares

variable {K : Type}

/-! ## The point of linearization -/

namespace Assignment

/-- What is stored under a key is replaced by itself. -/
theorem set_self {s : Assignment K} (hs : s.keys.Nodup) {key : Int} {x : Variable K}
    (hx : s.find key = .ok x) : s.set key x none = .ok s := by
  have hreplace : replace key x s.entries = s.entries := by
    rw [replace]
    refine (List.map_congr_left fun e he => ?_).trans (List.map_id _)
    split
    · rename_i hkey
      exact List.inj_on_of_nodup_map hs (mem_of_find hx) he hkey.symm
    · rfl
  simp only [set, select, hx, bind, Except.bind, if_true, hreplace]

end Assignment

/-- Keys that are contained are looked up. -/
theorem Assignment.exists_mapM_find {s : Assignment K} {keys : List Int}
    (hkeys : ∀ key ∈ keys, ∃ x, s.find key = .ok x) : ∃ xs, keys.mapM s.find = .ok xs := by
  obtain ⟨xs, hxs, -⟩ := exists_mapM (P := fun _ => True) fun key hkey =>
    (hkeys key hkey).imp fun _ hx => ⟨hx, trivial⟩
  exact ⟨xs, hxs⟩

/-- A variable that is moved in place was found. -/
theorem exists_find_of_perturb [Zero K] [Add K] [Elementary K] {s t u : Assignment K}
    {keys : List Int} (h : perturb s keys t = .ok u) : ∀ key ∈ keys, ∃ x, s.find key = .ok x := by
  induction keys generalizing t with
  | nil => exact fun key hkey => absurd hkey List.not_mem_nil
  | cons key keys ih =>
    obtain ⟨x, hx, h⟩ := bind_eq_ok.1 h
    obtain ⟨moved, -, h⟩ := bind_eq_ok.1 h
    obtain ⟨t', -, h⟩ := bind_eq_ok.1 h
    exact List.forall_mem_cons.2 ⟨⟨x, hx⟩, ih h⟩

/-- Variables that stay in place leave the assignment as it is. -/
theorem perturb_eq [Zero K] [Add K] [Elementary K] {s : Assignment K}
    (hs : s.keys.Nodup) {keys : List Int}
    (h : ∀ key ∈ keys, ∃ x, s.find key = .ok x ∧
      x.move (.ofList (List.replicate x.kind.dimension 0)) = .ok x) :
    perturb s keys s = .ok s := by
  induction keys with
  | nil => rfl
  | cons key keys ih =>
    obtain ⟨x, hx, hmove⟩ := h key (List.mem_cons_self ..)
    simp only [perturb, hx, hmove, Assignment.set_self hs hx, bind, Except.bind]
    exact ih fun key hkey => h key (List.mem_cons_of_mem _ hkey)

/-- A point of a vector space stays in place. -/
theorem Variable.move_zeros [AddMonoid K] [Elementary K] {x : Variable K}
    (hx : x.kind.IsVector) :
    x.move (.ofList (List.replicate x.kind.dimension 0)) = .ok x := by
  rw [move_eq hx List.length_replicate, translate_zeros]

/-- All variables stay in place along a tangent vector of length zero. -/
def Assignment.AtRest [Zero K] [Add K] [Elementary K] (s : Assignment K) : Prop :=
  ∀ e ∈ s.entries, e.2.move (.ofList (List.replicate e.2.kind.dimension 0)) = .ok e.2

/-- Points of vector spaces stay in place. -/
theorem Assignment.IsVector.atRest [AddMonoid K] [Elementary K] {s : Assignment K}
    (hs : s.IsVector) : s.AtRest := fun e he => Variable.move_zeros (hs e he)

/-- Variables that stay in place are linearized at themselves. -/
theorem Assignment.AtRest.perturb_self [Zero K] [Add K] [Elementary K] {s : Assignment K}
    (hs : s.AtRest) (hnodup : s.keys.Nodup) {keys : List Int}
    (hkeys : ∀ key ∈ keys, ∃ x, s.find key = .ok x) : perturb s keys s = .ok s := by
  refine perturb_eq hnodup fun key hkey => ?_
  obtain ⟨x, hx⟩ := hkeys key hkey
  exact ⟨x, hx, hs _ (mem_of_find hx)⟩

/-- Points of vector spaces are linearized at themselves. -/
theorem perturb_self [AddMonoid K] [Elementary K] {s : Assignment K} (hnodup : s.keys.Nodup)
    (hs : s.IsVector) {keys : List Int} (hkeys : ∀ key ∈ keys, ∃ x, s.find key = .ok x) :
    perturb s keys s = .ok s := hs.atRest.perturb_self hnodup hkeys

/-! ## Assembled models -/

@[simp] theorem BlockVector.dimension_ofList (xs : List K) :
    (ofList xs).dimension = xs.length := by
  simp [dimension, ofList, Span.ofLength]

/-- The entries of a list are its values. -/
theorem BlockVector.entry_ofList [AddCommMonoid K] (xs : List K) (i : Nat) :
    (ofList xs).entry i = xs.getD i 0 := by
  have hentry : (ofList xs).entry i = (Span.ofLength 0 xs.length).pick 0
      (xs.take (Span.ofLength 0 xs.length).length) i := add_zero _
  rw [hentry, Span.length_ofLength, List.take_length]
  by_cases hi : i < xs.length
  · rw [Span.pick_of_mem (by simp only [Span.ofLength]; omega)]
    simp [Span.ofLength]
  · rw [Span.pick_of_notMem (by simp only [Span.ofLength]; omega),
      List.getD_eq_default _ _ (by omega)]

section
variable [CommRing K] {s : Assignment K}

/-- The model of assembled blocks. -/
theorem assemble_spec {blocks : List (Int × List (List K))} {residual : List K}
    (hblocks : blocks ≠ []) (hresidual : residual ≠ [])
    (h : ∀ i < residual.length, ∀ block ∈ blocks, ∃ x, s.find block.1 = .ok x ∧
      (block.2.getD i []).length = x.kind.dimension) :
    ∃ model, assemble s blocks residual = .ok model ∧ model.Regular ∧
      model.matrix.rows = model.bias.dimension ∧ model.matrix.columns ≤ s.dimension ∧
      model.target = residual.map (-·) ∧
      ∀ d : Fin s.dimension → K, model.product d =
        List.ofFn fun i : Fin residual.length => (blocks.map fun block =>
          Dense.dot (block.2.getD i []) (s.part (List.ofFn d) block.1)).sum := by
  choose! row hassemble hwf hlayout hinner using fun i hi => assembleRow_spec (h i hi)
  have hpos := List.length_pos_iff.2 hresidual
  have hon : ∀ span ∈ blocks.map (fun block => s.spanAt block.1), span.On s.dimension := by
    refine List.forall_mem_map.2 fun block hblock => ?_
    obtain ⟨x, hx, -⟩ := h 0 hpos block hblock
    exact Assignment.spanAt_on hx
  obtain ⟨A, hA, hregular, hrows, hcolumns, hentry⟩ :=
    BlockMatrix.collate_range hpos.ne' hwf hlayout (by simpa using hblocks) hon
  have hmap : (List.range residual.length).mapM (assembleRow s blocks) =
      .ok ((List.range residual.length).map row) :=
    mapM_eq_ok fun i hi => hassemble i (List.mem_range.1 hi)
  have hmodel : assemble s blocks residual = .ok ⟨A, .ofList (residual.map (-·))⟩ := by
    rw [assemble, hmap]
    simp only [hA, bind, Except.bind]
  have hdimension : (BlockVector.ofList (residual.map (-·))).dimension = residual.length := by
    rw [BlockVector.dimension_ofList, List.length_map]
  have htight : A.rows = (BlockVector.ofList (residual.map (-·))).dimension :=
    hrows.trans hdimension.symm
  refine ⟨_, hmodel, ⟨hregular, BlockVector.regular_ofList _, htight.le⟩, htight, hcolumns, ?_,
    fun d => ?_⟩
  · refine List.ext_getElem (by simp [LinearModel.height, hdimension]) fun i h₁ h₂ => ?_
    simp only [LinearModel.target, List.getElem_ofFn]
    rw [BlockVector.entry_ofList, List.getD_eq_getElem _ _ h₂]
  · refine List.ext_getElem (by simp [LinearModel.height, hdimension]) fun i h₁ h₂ => ?_
    rw [List.length_ofFn] at h₂
    simp only [LinearModel.product, List.getElem_ofFn, BlockMatrix.rowProduct]
    rw [← hinner i h₂]
    exact Finset.sum_congr rfl fun j _ => by rw [hentry i h₂]

/-- A model of a residual with entries is assembled of blocks. -/
theorem ne_nil_of_assemble {blocks : List (Int × List (List K))} {residual : List K}
    {model : LinearModel K} (hresidual : residual ≠ [])
    (h : assemble s blocks residual = .ok model) : blocks ≠ [] := by
  rintro rfl
  obtain ⟨m, hm⟩ := Nat.exists_eq_succ_of_ne_zero (List.length_pos_iff.2 hresidual).ne'
  have hrows : (List.range residual.length).mapM (assembleRow s []) =
      .ok ((List.range residual.length).map fun _ => 0) := mapM_eq_ok fun _ _ => rfl
  obtain ⟨rows, hrows', h⟩ := bind_eq_ok.1 h
  cases hrows'.symm.trans hrows
  obtain ⟨matrix, hcollate, -⟩ := bind_eq_ok.1 h
  -- rows without blocks are not collated
  rw [hm, List.range_succ_eq_map, List.map_cons, BlockMatrix.collate] at hcollate
  split at hcollate
  · cases hcollate
  · cases hcollate

/-! ## Linearized residuals -/

/-- The gradients of the entries, in order. -/
def Traced.gradients (t : Traced K) : List (Gradient K) :=
  (List.range t.value.data.length).map fun i => t.adjoint (Dense.unit t.value.data.length i)

@[simp] theorem Traced.length_gradients (t : Traced K) :
    t.gradients.length = t.value.data.length := by
  rw [gradients, List.length_map, List.length_range]

theorem Traced.getElem_gradients (t : Traced K) {i : Nat} (hi : i < t.gradients.length) :
    t.gradients[i] = t.adjoint (Dense.unit t.value.data.length i) := by
  simp only [gradients, List.getElem_map, List.getElem_range]

variable [Elementary K]

namespace ResidualFactor

variable {f : ResidualFactor K} {u : Assignment K} {t : Traced K}
  {blocks : List (Int × List (List K))} {model : LinearModel K}

/-- A linearization that gives a model, by the point it evaluates the residual at, the trace there
and the Jacobian blocks. -/
structure Linearizes (f : ResidualFactor K) (s u : Assignment K) (t : Traced K)
    (blocks : List (Int × List (List K))) (model : LinearModel K) : Prop where
  perturb_eq : perturb s f.keys s = .ok u
  trace_eq : f.residual.trace u = .ok t
  data_ne : t.value.data ≠ []
  blocks_eq : jacobianBlocks s t.gradients f.keys = .ok blocks
  assemble_eq : assemble s blocks t.value.data = .ok model

theorem linearize_eq_ok : f.linearize s = .ok model ↔
    ∃ u t blocks, f.Linearizes s u t blocks model := by
  constructor
  · intro h
    obtain ⟨_, -, h⟩ := bind_eq_ok.1 h
    obtain ⟨u, hu, h⟩ := bind_eq_ok.1 h
    obtain ⟨t, ht, h⟩ := bind_eq_ok.1 h
    dsimp only at h
    split at h
    · cases h
    · rename_i hlen
      obtain ⟨blocks, hblocks, hmodel⟩ := bind_eq_ok.1 h
      exact ⟨u, t, blocks, hu, ht, List.length_pos_iff.1 (Nat.pos_of_ne_zero hlen), hblocks, hmodel⟩
  · rintro ⟨u, t, blocks, h⟩
    have hlen : t.value.data.length ≠ 0 := (List.length_pos_iff.2 h.data_ne).ne'
    have hblocks := h.blocks_eq
    rw [Traced.gradients] at hblocks
    obtain ⟨xs, hxs⟩ := Assignment.exists_mapM_find (exists_find_of_perturb h.perturb_eq)
    simp only [linearize, hxs, h.perturb_eq, h.trace_eq, hblocks, bind, Except.bind, if_neg hlen]
    exact h.assemble_eq

/-- The linear model of a residual: its bias is the negated residual, and it takes a joint tangent
vector to what the blocks make of the parts. -/
theorem Linearizes.spec (h : f.Linearizes s u t blocks model) :
    model.Regular ∧ model.matrix.rows = model.bias.dimension ∧ model.matrix.columns ≤ s.dimension ∧
      model.target = t.value.data.map (-·) ∧
      ∀ d : Fin s.dimension → K, model.product d =
        List.ofFn fun i : Fin t.value.data.length => (blocks.map fun block =>
          Dense.dot (block.2.getD i []) (s.part (List.ofFn d) block.1)).sum := by
  obtain ⟨-, hparts⟩ := of_jacobianBlocks h.blocks_eq
  rw [Traced.length_gradients] at hparts
  obtain ⟨model', hmodel', hspec⟩ :=
    assemble_spec (ne_nil_of_assemble h.data_ne h.assemble_eq) h.data_ne hparts
  cases h.assemble_eq.symm.trans hmodel'
  exact hspec

end ResidualFactor

/-- A residual on variables that stay in place is linearized at the assignment itself. -/
theorem Assignment.AtRest.exists_linearizes (hs : s.AtRest) (hnodup : s.keys.Nodup)
    {f : ResidualFactor K} (hne : f.keys ≠ []) (hkeys : ∀ key ∈ f.keys, ∃ x, s.find key = .ok x)
    {t : Traced K} (ht : f.residual.trace s = .ok t) (hdata : t.value.data ≠ []) :
    ∃ blocks model, f.Linearizes s s t blocks model := by
  obtain ⟨blocks, hblocks⟩ := exists_jacobianBlocks t.gradients hkeys
  obtain ⟨hmap, hparts⟩ := of_jacobianBlocks hblocks
  rw [Traced.length_gradients] at hparts
  have hblocksNe : blocks ≠ [] := by
    rintro rfl
    exact hne hmap.symm
  obtain ⟨model, hmodel, -⟩ := assemble_spec hblocksNe hdata hparts
  exact ⟨blocks, model, hs.perturb_self hnodup hkeys, ht, hdata, hblocks, hmodel⟩

/-- A residual on points of vector spaces is linearized at the assignment itself. -/
theorem ResidualFactor.exists_linearizes (hnodup : s.keys.Nodup) (hs : s.IsVector)
    {f : ResidualFactor K} (hne : f.keys ≠ []) (hkeys : ∀ key ∈ f.keys, ∃ x, s.find key = .ok x)
    {t : Traced K} (ht : f.residual.trace s = .ok t) (hdata : t.value.data ≠ []) :
    ∃ blocks model, f.Linearizes s s t blocks model :=
  hs.atRest.exists_linearizes hnodup hne hkeys ht hdata

/-- The linear model of a residual on points of vector spaces: its bias is the negated residual, and
it takes a joint tangent vector to the change that the gradients of the entries predict. -/
theorem ResidualFactor.linearize_spec (hnodup : s.keys.Nodup) (hs : s.IsVector)
    {f : ResidualFactor K} (hne : f.keys ≠ []) (hkeys : ∀ key ∈ f.keys, ∃ x, s.find key = .ok x)
    {t : Traced K} (ht : f.residual.trace s = .ok t) (hdata : t.value.data ≠ [])
    (hadjoint : ∀ g : List K, g.length = t.value.data.length →
      ∀ part ∈ t.adjoint g, part.1 ∈ f.keys) :
    ∃ model, f.linearize s = .ok model ∧ model.Regular ∧
      model.matrix.rows = model.bias.dimension ∧ model.matrix.columns ≤ s.dimension ∧
      model.target = t.value.data.map (-·) ∧
      ∀ d : Fin s.dimension → K, model.product d =
        List.ofFn fun i : Fin t.value.data.length => Gradient.pair (s.part (List.ofFn d))
          (t.adjoint (Dense.unit t.value.data.length i)) := by
  obtain ⟨blocks, model, h⟩ := exists_linearizes hnodup hs hne hkeys ht hdata
  obtain ⟨blocks', hblocks', hpair⟩ := jacobianBlocks_spec t.gradients hs hkeys
  cases h.blocks_eq.symm.trans hblocks'
  simp only [Traced.length_gradients] at hpair
  obtain ⟨hregular, hrows, hcolumns, htarget, hproduct⟩ := h.spec
  refine ⟨model, linearize_eq_ok.2 ⟨s, t, blocks, h⟩, hregular, hrows, hcolumns, htarget,
    fun d => ?_⟩
  rw [hproduct]
  congr 1
  funext i
  have hlen : ∀ key ∈ f.keys, ∀ x, s.find key = .ok x →
      (s.part (List.ofFn d) key).length = x.kind.dimension :=
    fun key _ x hx => Assignment.length_part hx List.length_ofFn
  have hall := List.filter_eq_self.2 fun part hpart =>
    List.contains_iff_mem.2 (hadjoint (Dense.unit t.value.data.length i) (by simp [Dense.unit])
      part hpart)
  rw [hpair _ hlen i i.2, Traced.getElem_gradients, hall]

end

/-- The graph of the factors of some residuals, in order. -/
def Graph.ofResiduals [Zero K] [One K] [Add K] [Neg K] [Mul K] [Elementary K]
    (fs : List (ResidualFactor K)) : Graph K := ⟨fs.map fun f => f.toFactor⟩

end LeastSquares
