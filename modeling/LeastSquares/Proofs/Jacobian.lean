import LeastSquares.Factor.Linearization
import LeastSquares.Proofs.Collation
import LeastSquares.Proofs.Exactness
import LeastSquares.Proofs.Reachability

/-!
# Rows of Jacobians

The blocks of a Jacobian row pair with the parts of a joint tangent vector to what its gradient
predicts, whatever keys occur how often: an earlier occurrence of a key contributes nothing, the
last one all sensitivities to the variable (`jacobianBlocks_spec`). A sensitivity that is embedded
into joint coordinates pairs with a joint tangent vector as it does with the part of its variable
(`Assignment.embed_inner`). So the embedded blocks, which lie side by side in a row
(`assembleRow_eq`), add up to a regular vector whose inner product with a joint tangent vector is
that sum (`assembleRow_spec`).
-/

namespace LeastSquares

variable {K : Type}

/-! ## Sensitivities along a key -/

theorem sumOrOnly_eq_sum [AddCommMonoid K] (xs : List K) : sumOrOnly xs = xs.sum := by
  cases xs with
  | nil => rfl
  | cons x xs => rw [sumOrOnly, List.sum_eq_foldl, List.foldl_cons, zero_add]

namespace Gradient

section
variable [CommSemiring K]

/-- The sensitivities of some parts, paired with a motion one by one or added up. -/
theorem sum_getD_mul (parts : List (List K)) (y : List K) :
    ∑ k ∈ Finset.range y.length, (parts.map (·.getD k 0)).sum * y.getD k 0 =
      (parts.map (Dense.dot · y)).sum := by
  induction parts with
  | nil => simp
  | cons part parts ih =>
    simp only [List.map_cons, List.sum_cons, add_mul, Finset.sum_add_distrib, ih,
      Dense.dot_eq_sum part]

/-- The sensitivities along a key pair with its motion as the parts of the key do. -/
theorem dot_along (δ : Int → List K) (g : Gradient K) (key : Int) :
    Dense.dot (g.along key (δ key).length) (δ key) =
      Gradient.pair δ (g.filter fun part => part.1 == key) := by
  have hpair : Gradient.pair δ (g.filter fun part => part.1 == key) =
      (((g.filter fun part => part.1 == key).map (·.2)).map (Dense.dot · (δ key))).sum := by
    rw [pair, List.map_map]
    refine congrArg List.sum (List.map_congr_left fun part hpart => ?_)
    have hkey : part.1 = key := by simpa using (List.mem_filter.1 hpart).2
    rw [hkey]
    rfl
  rw [hpair, ← sum_getD_mul, Dense.dot_eq_sum]
  refine Finset.sum_congr rfl fun k hk => ?_
  rw [along, List.getD_eq_getElem _ _ (by simpa using hk), List.getElem_map, List.getElem_range,
    sumOrOnly_eq_sum]

theorem pair_filter_cons (δ : Int → List K) (p : Int × List K → Bool) (part : Int × List K)
    (g : Gradient K) :
    Gradient.pair δ ((part :: g).filter p) =
      (if p part then Dense.dot part.2 (δ part.1) else 0) + Gradient.pair δ (g.filter p) := by
  rw [List.filter_cons]
  split
  · rfl
  · rw [zero_add]

/-- Parts of some keys and of another one are paired apart. -/
theorem pair_filter_mem_cons (δ : Int → List K) (g : Gradient K) {key : Int} {keys : List Int}
    (hkey : key ∉ keys) :
    Gradient.pair δ (g.filter fun part => (key :: keys).contains part.1) =
      Gradient.pair δ (g.filter fun part => part.1 == key) +
        Gradient.pair δ (g.filter fun part => keys.contains part.1) := by
  induction g with
  | nil => exact (add_zero _).symm
  | cons part g ih =>
    rw [pair_filter_cons, pair_filter_cons, pair_filter_cons, ih, add_add_add_comm]
    congr 1
    by_cases h : part.1 = key
    · have hnot : part.1 ∉ keys := by rwa [h]
      simp [h, hkey]
    · simp [h]

end

end Gradient

/-! ## Blocks of a row -/

/-- Where a point of a vector space is moved to, all sensitivities pass to the tangent vector. -/
theorem Variable.moveAdjoint_eq [Zero K] [Add K] [Elementary K] {x : Variable K}
    (hx : x.kind.IsVector) (g : Nat → List K) :
    x.moveAdjoint g = g x.coordinates.length := by
  unfold moveAdjoint
  split
  · rfl
  · rename_i hkind
    rw [hkind] at hx
    exact hx.elim

/-- What passes to the tangent vector is as long as the tangent space. -/
theorem Variable.length_moveAdjoint [Zero K] [Add K] [Elementary K] (x : Variable K)
    {g : Nat → List K} (hg : ∀ n, (g n).length = n) :
    (x.moveAdjoint g).length = x.kind.dimension := by
  obtain ⟨kind, coordinates, hadmits⟩ := x
  cases kind with
  | vector name n => exact (hg _).trans hadmits
  | manifold name n =>
    simp only [moveAdjoint]
    split
    · rename_i motion _
      exact motion.length_adjoint _
    · exact List.length_replicate

/-- The blocks of a residual of `m` entries: one for each key, in order, with a row for each entry
of the residual that is as long as the tangent space of the variable. -/
structure Assignment.Blocks (s : Assignment K) (keys : List Int) (m : Nat)
    (blocks : List (Int × List (List K))) : Prop where
  keys_eq : blocks.map (·.1) = keys
  height : ∀ block ∈ blocks, block.2.length = m
  width : ∀ block ∈ blocks, ∃ x, s.find block.1 = .ok x ∧
    ∀ row ∈ block.2, row.length = x.kind.dimension

theorem Assignment.Blocks.ne_nil {s : Assignment K} {keys : List Int} {m : Nat}
    {blocks : List (Int × List (List K))} (h : s.Blocks keys m blocks) (hkeys : keys ≠ []) :
    blocks ≠ [] := by
  rintro rfl
  exact hkeys h.keys_eq.symm

theorem Assignment.Blocks.length_getD {s : Assignment K} {keys : List Int} {m : Nat}
    {blocks : List (Int × List (List K))} (h : s.Blocks keys m blocks) {i : Nat} (hi : i < m) :
    ∀ block ∈ blocks, ∃ x, s.find block.1 = .ok x ∧
      (block.2.getD i []).length = x.kind.dimension := by
  intro block hblock
  obtain ⟨x, hx, hlen⟩ := h.width block hblock
  have hi : i < block.2.length := by rwa [h.height block hblock]
  exact ⟨x, hx, by rw [List.getD_eq_getElem _ _ hi, hlen _ (List.getElem_mem hi)]⟩

section
variable [Zero K] [Add K] [Elementary K] {s : Assignment K} {gradients : List (Gradient K)}

/-- The rows of the block of a last occurrence are the sensitivities to the variable. -/
theorem row_jacobianBlock_last {x : Variable K} (hx : x.kind.IsVector) (key : Int) {i : Nat}
    (hi : i < gradients.length) : (jacobianBlock gradients key x true).getD i [] =
      gradients[i].along key x.coordinates.length := by
  rw [jacobianBlock, List.getD_eq_getElem _ _ (by simpa using hi), List.getElem_map, Bool.true_and]
  split
  · exact Variable.moveAdjoint_eq hx _
  · rename_i hnone
    rw [Bool.not_eq_true, List.any_eq_false] at hnone
    rw [Gradient.along, List.filter_eq_nil_iff.2 hnone, Variable.length_coordinates hx]
    simp [sumOrOnly]

/-- The rows of the block of an earlier occurrence are zero. -/
theorem row_jacobianBlock_earlier (x : Variable K) (key : Int) {i : Nat}
    (hi : i < gradients.length) : (jacobianBlock gradients key x false).getD i [] =
      List.replicate x.kind.dimension 0 := by
  rw [jacobianBlock, List.getD_eq_getElem _ _ (by simpa using hi), List.getElem_map]
  rfl

/-- Blocks exist for keys that are contained. -/
theorem exists_jacobianBlocks (gradients : List (Gradient K)) {keys : List Int}
    (hkeys : ∀ key ∈ keys, ∃ x, s.find key = .ok x) :
    ∃ blocks, jacobianBlocks s gradients keys = .ok blocks := by
  induction keys with
  | nil => exact ⟨[], rfl⟩
  | cons key keys ih =>
    obtain ⟨x, hx⟩ := hkeys key (List.mem_cons_self ..)
    obtain ⟨blocks, hblocks⟩ := ih fun key hkey => hkeys key (List.mem_cons_of_mem _ hkey)
    exact ⟨_, bind_eq_ok.2 ⟨x, hx, bind_eq_ok.2 ⟨blocks, hblocks, rfl⟩⟩⟩

/-- Blocks are those of a residual with an entry for each gradient. -/
theorem blocks_of_jacobianBlocks {keys : List Int} {blocks : List (Int × List (List K))}
    (h : jacobianBlocks s gradients keys = .ok blocks) :
    s.Blocks keys gradients.length blocks := by
  induction keys generalizing blocks with
  | nil =>
    cases h
    exact ⟨rfl, by simp, by simp⟩
  | cons key keys ih =>
    obtain ⟨x, hx, h⟩ := bind_eq_ok.1 h
    obtain ⟨others, hothers, h⟩ := bind_eq_ok.1 h
    cases h
    obtain ⟨hkeys, hheight, hwidth⟩ := ih hothers
    refine ⟨by rw [List.map_cons, hkeys], List.forall_mem_cons.2 ⟨List.length_map _, hheight⟩,
      List.forall_mem_cons.2 ⟨⟨x, hx, fun row hrow => ?_⟩, hwidth⟩⟩
    obtain ⟨g, -, rfl⟩ := List.mem_map.1 hrow
    split
    · exact x.length_moveAdjoint (Gradient.length_along g key)
    · exact List.length_replicate

/-- Blocks are those of the keys, in order, under which variables are found, and their rows are as
long as the tangent spaces. -/
theorem of_jacobianBlocks {keys : List Int} {blocks : List (Int × List (List K))}
    (h : jacobianBlocks s gradients keys = .ok blocks) :
    blocks.map (·.1) = keys ∧ ∀ i < gradients.length, ∀ block ∈ blocks,
      ∃ x, s.find block.1 = .ok x ∧ (block.2.getD i []).length = x.kind.dimension :=
  have hblocks := blocks_of_jacobianBlocks h
  ⟨hblocks.keys_eq, fun _ hi => hblocks.length_getD hi⟩

/-- The block at a place is that of an occurrence which is the last one if the key is not among the
keys behind it. -/
theorem getElem_jacobianBlocks {keys : List Int} {blocks : List (Int × List (List K))}
    (h : jacobianBlocks s gradients keys = .ok blocks) {j : Nat} (hj : j < blocks.length) :
    ∃ x, s.find blocks[j].1 = .ok x ∧ blocks[j].2 = jacobianBlock gradients blocks[j].1 x
      (!(keys.drop (j + 1)).contains blocks[j].1) := by
  induction keys generalizing blocks j with
  | nil =>
    cases h
    exact absurd hj (Nat.not_lt_zero j)
  | cons key keys ih =>
    obtain ⟨x, hx, h⟩ := bind_eq_ok.1 h
    obtain ⟨others, hothers, h⟩ := bind_eq_ok.1 h
    cases h
    cases j with
    | zero => exact ⟨x, hx, rfl⟩
    | succ j => exact ih hothers (Nat.lt_of_succ_lt_succ hj)

end

section
variable [CommSemiring K] [Elementary K] {s : Assignment K} {gradients : List (Gradient K)}

/-- The block of the last occurrence of a key pairs with a motion as the parts of the key do. -/
theorem dot_jacobianBlock_last {x : Variable K} (hx : x.kind.IsVector) {δ : Int → List K}
    {key : Int} (hδ : (δ key).length = x.kind.dimension) {i : Nat} (hi : i < gradients.length) :
    Dense.dot ((jacobianBlock gradients key x true).getD i []) (δ key) =
      Gradient.pair δ (gradients[i].filter fun part => part.1 == key) := by
  rw [row_jacobianBlock_last hx key hi, Variable.length_coordinates hx, ← hδ, Gradient.dot_along]

/-- The block of an earlier occurrence of a key contributes nothing. -/
theorem dot_jacobianBlock_earlier (x : Variable K) (key : Int) (y : List K) {i : Nat}
    (hi : i < gradients.length) :
    Dense.dot ((jacobianBlock gradients key x false).getD i []) y = 0 := by
  rw [row_jacobianBlock_earlier x key hi, Dense.dot_replicate_zero]

/-- Blocks exist for keys that are contained, and in every row they pair with the motions of the
variables as the gradient of the row does. -/
theorem jacobianBlocks_spec (gradients : List (Gradient K)) (hs : s.IsVector) {keys : List Int}
    (hkeys : ∀ key ∈ keys, ∃ x, s.find key = .ok x) :
    ∃ blocks, jacobianBlocks s gradients keys = .ok blocks ∧
      ∀ δ : Int → List K,
        (∀ key ∈ keys, ∀ x, s.find key = .ok x → (δ key).length = x.kind.dimension) →
        ∀ (i : Nat) (hi : i < gradients.length),
          (blocks.map fun block => Dense.dot (block.2.getD i []) (δ block.1)).sum =
            Gradient.pair δ (gradients[i].filter fun part => keys.contains part.1) := by
  induction keys with
  | nil =>
    refine ⟨[], rfl, fun δ _ i hi => ?_⟩
    simp [Gradient.pair]
  | cons key keys ih =>
    obtain ⟨blocks, hblocks, hpair⟩ :=
      ih fun key hkey => hkeys key (List.mem_cons_of_mem _ hkey)
    obtain ⟨x, hx⟩ := hkeys key (List.mem_cons_self ..)
    have hvec := hs.kind_find hx
    refine ⟨(key, jacobianBlock gradients key x (!keys.contains key)) :: blocks, ?_, ?_⟩
    · simp only [jacobianBlocks, hx, hblocks, bind, Except.bind]
    · intro δ hδ i hi
      have hrest := hpair δ (fun key hkey => hδ key (List.mem_cons_of_mem _ hkey)) i hi
      rw [List.map_cons, List.sum_cons, hrest]
      by_cases hmem : key ∈ keys
      · have hcontains : ∀ k, (key :: keys).contains k = keys.contains k := by
          intro k
          by_cases hk : k = key <;> simp [hk, hmem]
        have hlast : (!keys.contains key) = false := by simpa using hmem
        simp only [hlast, hcontains]
        rw [dot_jacobianBlock_earlier x key _ hi, zero_add]
      · have hlast : (!keys.contains key) = true := by simpa using hmem
        rw [Gradient.pair_filter_mem_cons _ _ hmem]
        simp only [hlast]
        rw [dot_jacobianBlock_last hvec (hδ key (List.mem_cons_self ..) x hx) hi]

end

/-! ## Rows in joint coordinates -/

/-- The inner product of the entries with a vector. -/
def BlockVector.inner [NonUnitalNonAssocSemiring K] {n : Nat} (v : BlockVector K) (x : Fin n → K) :
    K := ∑ j : Fin n, v.entry j * x j

theorem BlockVector.WellFormed.inner_add [NonUnitalNonAssocSemiring K] {n : Nat}
    {v : BlockVector K} (hv : v.WellFormed) (w : BlockVector K) (x : Fin n → K) :
    (v + w).inner x = v.inner x + w.inner x := by
  simp only [inner, hv.entry_add, add_mul, Finset.sum_add_distrib]

/-- The span of the variable under a key, which is empty if there is none. -/
def Assignment.spanAt (s : Assignment K) (key : Int) : Span :=
  match s.span key with
  | .ok span => span
  | .error _ => ⟨0, 0⟩

/-- The rows of blocks at a place, one after the other, each in the span of its key. -/
def Assignment.rowOf (s : Assignment K) (blocks : List (Int × List (List K))) (i : Nat) :
    BlockVector K :=
  ⟨blocks.flatMap fun block => block.2.getD i [], blocks.map fun block => s.spanAt block.1⟩

theorem Assignment.rowOf_cons (s : Assignment K) (block : Int × List (List K))
    (blocks : List (Int × List (List K))) (i : Nat) : s.rowOf (block :: blocks) i =
      ⟨block.2.getD i [], [s.spanAt block.1]⟩ + s.rowOf blocks i := rfl

section
variable [Zero K] [Add K] {s : Assignment K}

theorem Assignment.span_eq_spanAt {key : Int} {x : Variable K} (hx : s.find key = .ok x) :
    s.span key = .ok (s.spanAt key) := by
  obtain ⟨span, hspan, -⟩ := find_translate hx
  rw [spanAt, hspan]

theorem Assignment.spanAt_on {key : Int} {x : Variable K} (hx : s.find key = .ok x) :
    (s.spanAt key).On s.dimension := by
  obtain ⟨span, hspan, hon, -⟩ := find_translate hx
  rwa [spanAt, hspan]

theorem Assignment.length_spanAt {key : Int} {x : Variable K} (hx : s.find key = .ok x) :
    (s.spanAt key).length = x.kind.dimension := by
  obtain ⟨span, hspan, -, hlen, -⟩ := find_translate hx
  rwa [spanAt, hspan]

/-- A sensitivity of the length of a tangent space is embedded in one block, the span of the
variable. -/
theorem Assignment.embed_eq_ok {key : Int} {x : Variable K} (hx : s.find key = .ok x)
    {values : List K} (hvalues : values.length = x.kind.dimension) :
    s.embed key values = .ok ⟨values, [s.spanAt key]⟩ := by
  rw [embed, span_eq_spanAt hx]
  exact if_pos ((length_spanAt hx).trans hvalues.symm)

/-- A row of the Jacobian holds the rows of its blocks. -/
theorem assembleRow_eq {blocks : List (Int × List (List K))} {i : Nat}
    (h : ∀ block ∈ blocks, ∃ x, s.find block.1 = .ok x ∧
      (block.2.getD i []).length = x.kind.dimension) :
    assembleRow s blocks i = .ok (s.rowOf blocks i) := by
  -- the row built so far, to which the remaining blocks are added
  have hfold : ∀ acc : BlockVector K, blocks.foldlM (fun row block => do
      let part ← s.embed block.1 (block.2.getD i [])
      .ok (row + part)) acc = .ok (acc + s.rowOf blocks i) := by
    induction blocks with
    | nil =>
      intro acc
      exact congrArg Except.ok
        (congrArg₂ BlockVector.mk (List.append_nil _).symm (List.append_nil _).symm)
    | cons block blocks ih =>
      intro acc
      obtain ⟨x, hx, hlen⟩ := h block (List.mem_cons_self ..)
      rw [List.foldlM_cons, Assignment.embed_eq_ok hx hlen, Assignment.rowOf_cons]
      refine (ih (fun b hb => h b (List.mem_cons_of_mem _ hb)) _).trans (congrArg Except.ok ?_)
      exact congrArg₂ BlockVector.mk (List.append_assoc ..) (List.append_assoc ..)
  exact hfold 0

end

section
variable [CommSemiring K] {s : Assignment K}

/-- With every joint tangent vector it has there the inner product that the sensitivity has with the
part of the variable. -/
theorem Assignment.embed_inner {key : Int} {x : Variable K} (hx : s.find key = .ok x)
    {values : List K} (hvalues : values.length = x.kind.dimension) (d : Fin s.dimension → K) :
    (⟨values, [s.spanAt key]⟩ : BlockVector K).inner d =
      Dense.dot values (s.part (List.ofFn d) key) := by
  obtain ⟨span, hspan, hon, hlen, -⟩ := find_translate hx
  have hspanAt : s.spanAt key = span := by rw [spanAt, hspan]
  have hentry : ∀ i, (⟨values, [span]⟩ : BlockVector K).entry i = span.pick 0 values i := by
    intro i
    simp [BlockVector.entry, BlockVector.pieces, runs, hlen, ← hvalues]
  have hpart : s.part (List.ofFn d) key = span.slice (List.ofFn d) := by rw [part, hspan]
  simp only [hspanAt, BlockVector.inner, hentry]
  rw [Span.sum_pick_mul hon, hpart]

/-- The blocks of a row have the spans of their keys, and pair with a joint tangent vector as they
do with its parts. -/
theorem assembleRow_spec {blocks : List (Int × List (List K))} {i : Nat}
    (h : ∀ block ∈ blocks, ∃ x, s.find block.1 = .ok x ∧
      (block.2.getD i []).length = x.kind.dimension) :
    ∃ row, assembleRow s blocks i = .ok row ∧ row.WellFormed ∧
      row.blocks = blocks.map (fun block => s.spanAt block.1) ∧
      ∀ d : Fin s.dimension → K, row.inner d = (blocks.map fun block =>
        Dense.dot (block.2.getD i []) (s.part (List.ofFn d) block.1)).sum := by
  refine ⟨_, assembleRow_eq h, ?_⟩
  induction blocks with
  | nil =>
    have hentry : ∀ j, (s.rowOf [] i).entry j = 0 := fun _ => rfl
    exact ⟨rfl, rfl, fun d => by simp [BlockVector.inner, hentry]⟩
  | cons block blocks ih =>
    obtain ⟨x, hx, hlen⟩ := h block (List.mem_cons_self ..)
    obtain ⟨hwf, -, hinner⟩ := ih fun b hb => h b (List.mem_cons_of_mem _ hb)
    have hfirst : (⟨block.2.getD i [], [s.spanAt block.1]⟩ : BlockVector K).WellFormed :=
      (Assignment.length_spanAt hx).trans hlen.symm
    rw [Assignment.rowOf_cons]
    refine ⟨hfirst.add hwf, rfl, fun d => ?_⟩
    rw [hfirst.inner_add, hinner, Assignment.embed_inner hx hlen, List.map_cons, List.sum_cons]

end

end LeastSquares
