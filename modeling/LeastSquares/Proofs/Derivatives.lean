import LeastSquares.Proofs.InsertionOrder
import LeastSquares.Proofs.Occurrences
import LeastSquares.Residual.Algebra
import Mathlib.Analysis.Calculus.LineDeriv.Basic
import Mathlib.Topology.Algebra.Module.ModuleTopology

/-!
# Linear models as derivatives

Along a joint tangent vector the entries of a residual are functions of its coordinates
(`Residual.entryAlong`). Where these functions are differentiable and the Jacobian blocks are the
partial derivatives by the tangent vectors of the occurrences of the keys
(`ResidualFactor.TracesPartials`), the linear model of the residual is its derivative at the
assignment (`ResidualFactor.linearize_derivative`), however often a key occurs: the block of an
occurrence that is not the last one is zero (`ResidualFactor.Linearizes.row_earlier`), that of the
last one is the part of the gradient that belongs to the variable
(`ResidualFactor.Linearizes.row_last`).
-/

open scoped Filter Topology

namespace LeastSquares

variable {s : Assignment ℝ}

/-! ## Residuals along tangent vectors -/

namespace Residual

/-- An entry of the residual at an assignment, zero if nothing is given. -/
def entryAt {K : Type} [Zero K] (r : Residual K) (i : Nat) (s : Except Error (Assignment K)) : K :=
  match s >>= r.value with
  | .ok v => v.data.getD i 0
  | .error _ => 0

/-- An entry of the residual behind the motion along a joint tangent vector. -/
noncomputable def entryAlong (r : Residual ℝ) (s : Assignment ℝ) (i : Nat)
    (d : Fin s.dimension → ℝ) : ℝ := r.entryAt i (s.move (.ofList (List.ofFn d)))

/-- A motion along a joint tangent vector leads to where the residual has `m` entries. -/
def Evaluates (r : Residual ℝ) (s : Assignment ℝ) (m : Nat) (d : List ℝ) : Prop :=
  ∃ t v, s.move (.ofList d) = .ok t ∧ r.value t = .ok v ∧ v.data.length = m

/-- Near an assignment the residual has `m` entries, and at the assignment they are differentiable
functions of the joint tangent vector. -/
structure Differentiable (r : Residual ℝ) (s : Assignment ℝ) (m : Nat) : Prop where
  evaluates : ∀ᶠ d : Fin s.dimension → ℝ in 𝓝 0, r.Evaluates s m (List.ofFn d)
  differentiableAt : ∀ i < m, DifferentiableAt ℝ (r.entryAlong s i) 0

/-- The gradient of an entry, by coordinates of the joint tangent space. -/
noncomputable def gradientAt (r : Residual ℝ) (s : Assignment ℝ) (i : Nat) :
    Fin s.dimension → ℝ := fun p => fderiv ℝ (r.entryAlong s i) 0 (Pi.single p 1)

/-- The derivative along a joint tangent vector is the inner product with the gradient. -/
theorem hasDerivAt_entryAlong {r : Residual ℝ} {i : Nat}
    (h : DifferentiableAt ℝ (r.entryAlong s i) 0) (d : Fin s.dimension → ℝ) :
    HasDerivAt (fun t : ℝ => r.entryAlong s i (t • d)) (r.gradientAt s i ⬝ᵥ d) 0 := by
  have hline := h.hasFDerivAt.hasLineDerivAt d
  have hsum : fderiv ℝ (r.entryAlong s i) 0 d = r.gradientAt s i ⬝ᵥ d := by
    conv_lhs => rw [← Finset.univ_sum_single d, map_sum]
    refine Finset.sum_congr rfl fun p _ => ?_
    have hsingle : (Pi.single p (d p) : Fin s.dimension → ℝ) = d p • Pi.single p 1 := by
      rw [← Pi.single_smul, smul_eq_mul, mul_one]
    rw [hsingle, map_smul, smul_eq_mul, mul_comm]
    rfl
  rw [HasLineDerivAt, hsum] at hline
  simpa only [zero_add] using hline

/-- The derivative by one coordinate. -/
theorem hasDerivAt_single {r : Residual ℝ} {i : Nat}
    (h : DifferentiableAt ℝ (r.entryAlong s i) 0) (p : Fin s.dimension) :
    HasDerivAt (fun t : ℝ => r.entryAlong s i (Pi.single p t)) (r.gradientAt s i p) 0 := by
  have hline := hasDerivAt_entryAlong h (Pi.single p 1)
  rw [dotProduct_single, mul_one] at hline
  have hsingle : ∀ t : ℝ, t • (Pi.single p 1 : Fin s.dimension → ℝ) = Pi.single p t := by
    intro t
    rw [← Pi.single_smul, smul_eq_mul, mul_one]
  simpa only [hsingle] using hline

end Residual

/-! ## Rows of Jacobian blocks -/

/-- A sum to which only the last occurrence of a key contributes. -/
theorem sum_map_last {β K : Type} [AddMonoid K] (blocks : List (Int × β)) (w : Int × β → K)
    (c : Int → K) (h : ∀ (j : Nat) (hj : j < blocks.length), w blocks[j] =
      if blocks[j].1 ∈ (blocks.map (·.1)).drop (j + 1) then 0 else c blocks[j].1) :
    (blocks.map w).sum = ((blocks.map (·.1)).dedup.map c).sum := by
  induction blocks with
  | nil => rfl
  | cons block blocks ih =>
    have hfirst : w block = if block.1 ∈ blocks.map (·.1) then 0 else c block.1 :=
      h 0 (Nat.zero_lt_succ _)
    have hrest := ih fun j hj => h (j + 1) (Nat.succ_lt_succ hj)
    rw [List.map_cons, List.sum_cons, List.map_cons, hfirst, hrest]
    by_cases hmem : block.1 ∈ blocks.map (·.1)
    · rw [if_pos hmem, zero_add, List.dedup_cons_of_mem hmem]
    · rw [if_neg hmem, List.dedup_cons_of_notMem hmem, List.map_cons, List.sum_cons]

namespace ResidualFactor

variable {f : ResidualFactor ℝ} {m : Nat}

/-- The Jacobian blocks of a linearization are the partial derivatives of the residual by the
tangent vectors of the occurrences of the keys, at vectors of length zero. -/
def TracesPartials (f : ResidualFactor ℝ) (s : Assignment ℝ) : Prop :=
  ∀ {u : Assignment ℝ} {t : Traced ℝ} {blocks : List (Int × List (List ℝ))}
    {model : LinearModel ℝ}, f.Linearizes s u t blocks model →
    ∀ (j : Nat) (hj : j < blocks.length) (i : Nat), i < t.value.data.length →
      ∀ l < (blocks[j].2.getD i []).length,
        HasDerivAt (fun h => f.residual.entryAt i (perturbAlong s (s.nudge f.keys j l h) s))
          ((blocks[j].2.getD i []).getD l 0) 0

/-- What a factor is differentiated at: points of vector spaces, under its keys among others, where
the residual is differentiable, has entries, and reads variables under these keys alone. -/
structure Smooth (f : ResidualFactor ℝ) (s : Assignment ℝ) (m : Nat) : Prop where
  nodup : s.keys.Nodup
  isVector : s.IsVector
  keys_ne : f.keys ≠ []
  mem_keys : ∀ key ∈ f.keys, ∃ x, s.find key = .ok x
  readsOnly : f.residual.ReadsOnly f.keys
  ne_zero : m ≠ 0
  differentiable : f.residual.Differentiable s m

/-- A coordinate of a variable under another key has no effect. -/
theorem Smooth.gradientAt_eq_zero (hf : f.Smooth s m) {i : Nat} (hi : i < m) {key : Int}
    (hkey : key ∉ f.keys) {l : Nat} {p : Fin s.dimension} (hp : s.labels[p.1]? = some (key, l)) :
    f.residual.gradientAt s i p = 0 := by
  have hagree : ∀ t : ℝ, (s.translate (List.ofFn (Pi.single p t))).AgreeOn f.keys s := by
    intro t k hk
    obtain ⟨x, hx⟩ := hf.mem_keys k hk
    obtain ⟨-, -, -, -, htranslate⟩ := Assignment.find_translate hx
    have hne : k ≠ key := fun h => hkey (h ▸ hk)
    rw [htranslate _ List.length_ofFn, Assignment.part_single hf.nodup hp t hx, if_neg hne,
      x.translate_zeros, hx]
  have hconst : ∀ t : ℝ, f.residual.entryAlong s i (Pi.single p t) =
      f.residual.entryAt i (.ok s) := by
    intro t
    have hvalue : f.residual.value _ = f.residual.value s :=
      Residual.ReadsOnly.value_eq hf.readsOnly (hagree t)
    rw [Residual.entryAlong, Assignment.move_eq hf.isVector List.length_ofFn]
    simp only [Residual.entryAt, bind, Except.bind, hvalue]
  have hderiv := Residual.hasDerivAt_single (hf.differentiable.differentiableAt i hi) p
  simp only [hconst] at hderiv
  exact hderiv.unique (hasDerivAt_const ..)

namespace Linearizes

variable {u : Assignment ℝ} {t : Traced ℝ} {blocks : List (Int × List (List ℝ))}
  {model : LinearModel ℝ}

/-- The row of a block of an earlier occurrence of a key is zero. -/
theorem row_earlier (h : f.Linearizes s u t blocks model) (hf : f.Smooth s m)
    (htraces : f.TracesPartials s) {i : Nat} (hi : i < t.value.data.length) {j : Nat}
    (hj : j < blocks.length) (hagain : blocks[j].1 ∈ f.keys.drop (j + 1)) (ys : List ℝ) :
    Dense.dot (blocks[j].2.getD i []) ys = 0 := by
  obtain ⟨hmap, -⟩ := of_jacobianBlocks h.blocks_eq
  have hjkeys : j < f.keys.length := by simpa [← hmap] using hj
  have hkey : f.keys[j] = blocks[j].1 := by simp [← hmap]
  have hrow : ∀ l < (blocks[j].2.getD i []).length, (blocks[j].2.getD i []).getD l 0 = 0 := by
    intro l hl
    have hderiv := htraces h j hj i hi l hl
    simp only [perturbAlong_nudge_earlier hf.nodup hf.isVector hf.mem_keys hjkeys (hkey ▸ hagain)]
      at hderiv
    exact hderiv.unique (hasDerivAt_const ..)
  rw [Dense.dot_comm, Dense.dot_eq_sum]
  refine Finset.sum_eq_zero fun l hl => ?_
  rw [hrow l (Finset.mem_range.1 hl), mul_zero]

/-- The row of a block of the last occurrence of a key is the part of the gradient that belongs to
its variable. -/
theorem row_last (h : f.Linearizes s u t blocks model) (hf : f.Smooth s m)
    (htraces : f.TracesPartials s) {i : Nat} (hi : i < t.value.data.length) (him : i < m) {j : Nat}
    (hj : j < blocks.length) (hlast : blocks[j].1 ∉ f.keys.drop (j + 1)) :
    blocks[j].2.getD i [] = s.part (List.ofFn (f.residual.gradientAt s i)) blocks[j].1 := by
  obtain ⟨hmap, hparts⟩ := of_jacobianBlocks h.blocks_eq
  rw [Traced.length_gradients] at hparts
  obtain ⟨x, hx, hlen⟩ := hparts i hi _ (List.getElem_mem hj)
  have hjkeys : j < f.keys.length := by simpa [← hmap] using hj
  have hkey : f.keys[j] = blocks[j].1 := by simp [← hmap]
  have hpart := Assignment.length_part hx (List.length_ofFn (f := f.residual.gradientAt s i))
  refine List.ext_getElem (hlen.trans hpart.symm) fun l h₁ h₂ => ?_
  obtain ⟨p, hp, hget⟩ := Assignment.exists_label hx (l := l) (hlen ▸ h₁)
  have hderiv := htraces h j hj i hi l h₁
  simp only [perturbAlong_nudge_last hf.nodup hf.isVector hf.mem_keys hjkeys (hkey ▸ hlast)
    (hkey ▸ hp)] at hderiv
  rw [← List.getD_eq_getElem _ 0 h₁, ← List.getD_eq_getElem _ 0 h₂, hget]
  exact hderiv.unique (Residual.hasDerivAt_single (hf.differentiable.differentiableAt i him) p)

/-- The blocks pair with the parts of a joint tangent vector as the gradient does with it. -/
theorem sum_dot_blocks (h : f.Linearizes s u t blocks model) (hf : f.Smooth s m)
    (htraces : f.TracesPartials s) {i : Nat} (hi : i < t.value.data.length) (him : i < m)
    (d : Fin s.dimension → ℝ) :
    (blocks.map fun block =>
      Dense.dot (block.2.getD i []) (s.part (List.ofFn d) block.1)).sum =
      f.residual.gradientAt s i ⬝ᵥ d := by
  obtain ⟨hmap, -⟩ := of_jacobianBlocks h.blocks_eq
  have hlast := sum_map_last blocks
    (fun block => Dense.dot (block.2.getD i []) (s.part (List.ofFn d) block.1))
    (fun key => Dense.dot (s.part (List.ofFn (f.residual.gradientAt s i)) key)
      (s.part (List.ofFn d) key)) fun j hj => by
        rw [hmap]
        split
        · rename_i hagain
          exact h.row_earlier hf htraces hi hj hagain _
        · rename_i hlast
          rw [h.row_last hf htraces hi him hj hlast]
  have hzero : ∀ key ∈ s.keys, key ∉ f.keys →
      Dense.dot (s.part (List.ofFn (f.residual.gradientAt s i)) key)
        (s.part (List.ofFn d) key) = 0 := by
    intro key hkey hnot
    obtain ⟨x, hx⟩ := Assignment.mem_keys.1 hkey
    have hlen := Assignment.length_part hx (List.length_ofFn (f := d))
    rw [Dense.dot_eq_sum]
    refine Finset.sum_eq_zero fun l hl => ?_
    obtain ⟨p, hp, hget⟩ := Assignment.exists_label hx (hlen ▸ Finset.mem_range.1 hl)
    rw [hget, hf.gradientAt_eq_zero him hnot hp, zero_mul]
  rw [hlast, hmap, ← List.sum_toFinset _ (List.nodup_dedup _), ← Dense.dot_ofFn,
    ← Assignment.sum_dot_part hf.nodup List.length_ofFn List.length_ofFn,
    ← List.sum_toFinset _ hf.nodup]
  refine Finset.sum_subset (fun key hkey => ?_) fun key hkey hnot => ?_
  · obtain ⟨x, hx⟩ := hf.mem_keys key (List.mem_dedup.1 (List.mem_toFinset.1 hkey))
    exact List.mem_toFinset.2 (Assignment.mem_keys.2 ⟨x, hx⟩)
  · refine hzero key (List.mem_toFinset.1 hkey) fun h => hnot ?_
    exact List.mem_toFinset.2 (List.mem_dedup.2 h)

end Linearizes

/-- The trace at the assignment, whose entries are differentiated. -/
theorem Smooth.exists_trace (hf : f.Smooth s m) :
    ∃ t, f.residual.trace s = .ok t ∧ t.value.data.length = m := by
  -- along the vector of length zero the residual is evaluated at the assignment
  obtain ⟨u, v, hu, hv, hlen⟩ := hf.differentiable.evaluates.self_of_nhds
  have hzeros : List.ofFn (0 : Fin s.dimension → ℝ) = List.replicate s.dimension 0 :=
    (replicate_eq_ofFn _ _).symm
  rw [hzeros, Assignment.move_eq hf.isVector List.length_replicate, s.translate_zeros] at hu
  cases hu
  obtain ⟨t, ht, hvalue⟩ := bind_eq_ok.1 hv
  cases hvalue
  exact ⟨t, ht, hlen⟩

/-! ## Exact gradients -/

/-- Where the sensitivities to the variables are the gradients of the entries, the Jacobian blocks
are the partial derivatives by the tangent vectors of the occurrences. -/
theorem TracesPartials.of_along (hf : f.Smooth s m)
    (hgradient : ∀ t, f.residual.trace s = .ok t → ∀ i < m, ∀ key ∈ f.keys, ∀ x,
      s.find key = .ok x → (t.adjoint (Dense.unit m i)).along key x.coordinates.length =
        s.part (List.ofFn (f.residual.gradientAt s i)) key) : f.TracesPartials s := by
  intro u t blocks model h j hj i hi l hl
  obtain ⟨t', ht', hlen⟩ := hf.exists_trace
  cases (perturb_self hf.nodup hf.isVector hf.mem_keys).symm.trans h.perturb_eq
  cases ht'.symm.trans h.trace_eq
  have hig : i < t.gradients.length := by rwa [Traced.length_gradients]
  obtain ⟨hmap, -⟩ := of_jacobianBlocks h.blocks_eq
  have hjkeys : j < f.keys.length := by simpa [← hmap] using hj
  have hkey : f.keys[j] = blocks[j].1 := by simp [← hmap]
  obtain ⟨x, hx, hblock⟩ := getElem_jacobianBlocks h.blocks_eq hj
  by_cases hagain : blocks[j].1 ∈ f.keys.drop (j + 1)
  · -- another occurrence undoes the motion
    have hlast : (!(f.keys.drop (j + 1)).contains blocks[j].1) = false := by simpa using hagain
    have hrow : blocks[j].2.getD i [] = List.replicate x.kind.dimension 0 := by
      rw [hblock, hlast, row_jacobianBlock_earlier x _ hig]
    have hzero : (List.replicate x.kind.dimension (0 : ℝ)).getD l 0 = 0 :=
      List.getElem?_getD_replicate_default_eq 0 _ l
    rw [hrow, hzero]
    simp only [perturbAlong_nudge_earlier hf.nodup hf.isVector hf.mem_keys hjkeys (hkey ▸ hagain)]
    exact hasDerivAt_const ..
  · have hlast : (!(f.keys.drop (j + 1)).contains blocks[j].1) = true := by simpa using hagain
    have hrow : blocks[j].2.getD i [] =
        s.part (List.ofFn (f.residual.gradientAt s i)) blocks[j].1 := by
      rw [hblock, hlast, row_jacobianBlock_last (hf.isVector.kind_find hx) _ hig,
        Traced.getElem_gradients, hlen]
      exact hgradient t ht' i (hlen ▸ hi) _ (hkey ▸ List.getElem_mem hjkeys) x hx
    rw [hrow] at hl ⊢
    rw [Assignment.length_part hx List.length_ofFn] at hl
    obtain ⟨p, hp, hget⟩ := Assignment.exists_label hx hl
    simp only [perturbAlong_nudge_last hf.nodup hf.isVector hf.mem_keys hjkeys (hkey ▸ hagain)
      (hkey ▸ hp), hget]
    exact Residual.hasDerivAt_single (hf.differentiable.differentiableAt i (hlen ▸ hi)) p

/-! ## The derivative -/

/-- Where a residual is differentiable, has entries, reads variables under its keys alone and has
exact Jacobian blocks, its linear model is its derivative: the bias is the negated residual, and a
joint tangent vector is taken to the derivative of the residual behind the motion along multiples of
the vector. -/
theorem linearize_derivative (hs : s.Reachable) (hv : s.IsVector) (hne : f.keys ≠ [])
    (hkeys : ∀ key ∈ f.keys, key ∈ s.keys) (hreads : f.residual.ReadsOnly f.keys) (hm : m ≠ 0)
    (hdiff : f.residual.Differentiable s m) (htraces : f.TracesPartials s) :
    ∃ (model : LinearModel ℝ) (r : Tensor ℝ),
      f.linearize s = .ok model ∧ f.residual.value s = .ok r ∧ r.data.length = m ∧
      model.bias.dense model.bias.dimension = .ok (r.data.map (-·)) ∧
      ∀ d : List ℝ, d.length = s.dimension → ∃ product : List ℝ,
        model.matrix.apply (.dense (.ofList d)) = .ok product ∧ product.length = m ∧
        (∀ᶠ c : ℝ in 𝓝 0, f.residual.Evaluates s m (Dense.smul c d)) ∧
        ∀ i < m, HasDerivAt
          (fun c : ℝ => f.residual.entryAt i (s.move (.ofList (Dense.smul c d))))
          (product.getD i 0) 0 := by
  have hf : f.Smooth s m := ⟨hs.nodup_keys, hv, hne, fun key hkey =>
    Assignment.mem_keys.1 (hkeys key hkey), hreads, hm, hdiff⟩
  obtain ⟨t, hvalue, hlen⟩ := hf.exists_trace
  have hdata : t.value.data ≠ [] := List.length_pos_iff.1 (by omega)
  obtain ⟨blocks, model, h⟩ :=
    exists_linearizes hf.nodup hf.isVector hf.keys_ne hf.mem_keys hvalue hdata
  obtain ⟨hregular, hrows, hcolumns, htarget, hproduct⟩ := h.spec
  have hbias := hregular.dense_eq_target
  rw [htarget] at hbias
  refine ⟨model, t.value, linearize_eq_ok.2 ⟨s, t, blocks, h⟩, bind_eq_ok.2 ⟨t, hvalue, rfl⟩, hlen,
    hbias, fun d hd => ?_⟩
  obtain ⟨y, rfl⟩ : ∃ y : Fin s.dimension → ℝ, d = List.ofFn y :=
    ⟨_, (Dense.ofFn_toVector_of_length hd).symm⟩
  have hrow : ∀ i < m, (model.product y).getD i 0 = f.residual.gradientAt s i ⬝ᵥ y := by
    intro i hi
    have hit : i < t.value.data.length := hlen ▸ hi
    rw [hproduct, List.getD_eq_getElem _ _ (by simpa using hit), List.getElem_ofFn]
    exact h.sum_dot_blocks hf htraces hit hi y
  simp only [Dense.smul_ofFn]
  refine ⟨model.product y, hregular.apply_eq_product hrows hcolumns y, ?_, ?_, fun i hi => ?_⟩
  · rw [hproduct, List.length_ofFn, hlen]
  · have hto : Filter.Tendsto (fun c : ℝ => c • y) (𝓝 0) (𝓝 0) :=
      (continuous_id.smul continuous_const).tendsto' 0 0 (zero_smul ℝ y)
    exact hto.eventually hdiff.evaluates
  · rw [hrow i hi]
    exact Residual.hasDerivAt_entryAlong (hdiff.differentiableAt i hi) y

/-- A square that is moved along the line, but for a constant. -/
theorem hasDerivAt_square (a b : ℝ) :
    HasDerivAt (fun c : ℝ => (a + c) * (a + c) + b) (a + a) 0 := by
  have hadd : HasDerivAt (fun c : ℝ => a + c) 1 0 := (hasDerivAt_id 0).const_add a
  simpa using (hadd.mul hadd).add_const b

/-- The squared length of a point of the plane, by two occurrences of its key: along the abscissa it
changes by twice the abscissa. -/
theorem linearize_derivative_repeated :
    let s : Assignment ℝ := ⟨[(3, ⟨.line, [5], rfl⟩), (7, ⟨.plane, [1, 2], rfl⟩)]⟩
    let f : ResidualFactor ℝ := ⟨"length", [7, 7], .dot 3 7 7⟩
    s.Reachable ∧ s.IsVector ∧ f.keys ≠ [] ∧ (∀ key ∈ f.keys, key ∈ s.keys) ∧
      f.residual.ReadsOnly f.keys ∧ f.residual.Differentiable s 1 ∧ f.TracesPartials s ∧
      ∃ model, f.linearize s = .ok model ∧
        model.matrix.apply (.dense (.ofList [0, 1, 0])) = .ok [2] := by
  intro s f
  have hnodup : s.keys.Nodup := by decide
  have hs : s.Reachable := .of_nodup hnodup
  have hv : s.IsVector := by
    simp [s, Assignment.IsVector, Kind.line, Kind.plane, Kind.IsVector]
  have hkeys : ∀ key ∈ f.keys, key ∈ s.keys := by decide
  have hreads : f.residual.ReadsOnly f.keys := by
    intro s₁ s₂ h
    have hfind : s₁.find 7 = s₂.find 7 := h 7 (List.mem_cons_self ..)
    simp only [f, Residual.dot, Residual.read, hfind]
  have hentry : f.residual.entryAlong s 0 = fun d : Fin 3 → ℝ =>
      (1 + d 1) * (1 + d 1) + ((2 + d 2) * (2 + d 2) + 0) - 3 := by
    funext d
    rw [Residual.entryAlong, Assignment.move_eq hv List.length_ofFn]
    rfl
  have hdiff : f.residual.Differentiable s 1 := by
    refine ⟨.of_forall fun d => ⟨_, _, Assignment.move_eq hv List.length_ofFn, rfl, rfl⟩,
      fun i hi => ?_⟩
    rw [Nat.lt_one_iff.1 hi, hentry]
    fun_prop
  have hf : f.Smooth s 1 := ⟨hnodup, hv, List.cons_ne_nil _ _, fun key hkey =>
    Assignment.mem_keys.1 (hkeys key hkey), hreads, one_ne_zero, hdiff⟩
  have hcoordinate : ∀ (p : Fin 3) (a b : ℝ), (∀ c : ℝ,
      f.residual.entryAlong s 0 (Pi.single p c : Fin 3 → ℝ) = (a + c) * (a + c) + b) →
      f.residual.gradientAt s 0 p = a + a := by
    intro p a b h
    have hderiv := Residual.hasDerivAt_single (hdiff.differentiableAt 0 Nat.one_pos) p
    exact hderiv.unique ((hasDerivAt_square a b).congr_of_eventuallyEq (.of_forall h))
  have habscissa := hcoordinate 1 1 (2 * 2 - 3) fun c => by
    rw [hentry]
    simp
    ring
  have hordinate := hcoordinate 2 2 (1 * 1 - 3) fun c => by
    rw [hentry]
    simp
    ring
  have htraces : f.TracesPartials s := by
    refine TracesPartials.of_along hf fun t ht i hi key hkey x hx => ?_
    have hkey : key = 7 := by simpa [f] using hkey
    subst hkey
    cases hx
    cases ht
    rw [Nat.lt_one_iff.1 hi]
    have hpart : s.part (List.ofFn (f.residual.gradientAt s 0)) 7 =
        [f.residual.gradientAt s 0 (1 : Fin 3), f.residual.gradientAt s 0 (2 : Fin 3)] := rfl
    rw [hpart, habscissa, hordinate]
    change [(1 : ℝ) * 1 + 1 * 1, 1 * 2 + 1 * 2] = _
    norm_num
  obtain ⟨model, r, hmodel, -, -, -, hderivative⟩ :=
    linearize_derivative hs hv (List.cons_ne_nil _ _) hkeys hreads one_ne_zero hdiff htraces
  obtain ⟨product, hproduct, hlen, -, hentries⟩ := hderivative [0, 1, 0] rfl
  refine ⟨hs, hv, List.cons_ne_nil _ _, hkeys, hreads, hdiff, htraces, model, hmodel, ?_⟩
  have hderiv := hentries 0 Nat.one_pos
  have hmoved : ∀ c : ℝ, f.residual.entryAt 0 (s.move (.ofList (Dense.smul c [0, 1, 0]))) =
      (1 + c) * (1 + c) + (2 * 2 - 3) := by
    intro c
    have hlength : (Dense.smul c [0, 1, 0]).length = s.dimension := rfl
    rw [Assignment.move_eq hv hlength]
    change (1 + c * 1) * (1 + c * 1) + ((2 + c * 0) * (2 + c * 0) + 0) - 3 = _
    ring
  simp only [hmoved] at hderiv
  have htwo : product.getD 0 0 = 2 :=
    (hderiv.unique (hasDerivAt_square 1 _)).trans one_add_one_eq_two
  obtain ⟨y, rfl⟩ := List.length_eq_one_iff.1 hlen
  rw [hproduct]
  exact congrArg (fun y => Except.ok [y]) htwo

end ResidualFactor

end LeastSquares
