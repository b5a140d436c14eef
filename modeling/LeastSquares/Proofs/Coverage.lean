import LeastSquares.Proofs.Materialization

/-!
# Blocks that cover a position

The entry of a vector at a position, read from its record: each block that contains the position
(`BlockVector.covering`) keeps one place of the buffer for it (`BlockVector.place`), and the entry
is the sum of the scalars at these places (`BlockVector.WellFormed.entry_eq_sum`). Overlapping
blocks contribute one scalar each, blocks without positions none.

Since uniform arithmetic acts on the buffer and leaves the blocks alone, it acts on the scalars of
that sum (`BlockVector.WellFormed.entry_map`). So multiplication passes to the entries, while a
number added to the buffer is added to an entry once for every block that covers the position.
Materialization is linear for this reason and because the record of a sum holds the blocks of both
vectors (`BlockVector.dense_linear`).
-/

namespace LeastSquares

variable {K : Type}

/-- A listing is changed position by position. -/
theorem mapIdx_ofFn {n : Nat} (f : Nat → K → K) (g : Fin n → K) :
    (List.ofFn g).mapIdx f = List.ofFn fun i => f i (g i) :=
  List.ext_getElem (by simp) fun i h₁ h₂ => by simp

/-! ## Runs by index -/

/-- A run begins where the runs before it end. -/
theorem getElem_runs {ns : List Nat} {k : Nat} (hk : k < ns.length) (xs : List K)
    (h : k < (runs ns xs).length) :
    (runs ns xs)[k] = (xs.drop (total (ns.take k))).take ns[k] := by
  induction ns generalizing xs k with
  | nil => cases hk
  | cons n ns ih =>
    cases k with
    | zero => simp [runs]
    | succ k =>
      rw [List.length_cons, Nat.succ_lt_succ_iff] at hk
      simp [runs, ih hk, List.drop_drop]

/-- A run ends within the buffer of all runs. -/
theorem total_take_add_getElem_le (ns : List Nat) {k : Nat} (h : k < ns.length) :
    total (ns.take k) + ns[k] ≤ total ns := by
  have hsplit : total ns = total (ns.take k) + (ns[k] + total (ns.drop (k + 1))) := by
    rw [← total_cons, ← total_append, List.cons_getElem_drop_succ, List.take_append_drop]
  omega

namespace BlockVector

/-- The blocks, by index, that contain a position. -/
def covering (v : BlockVector K) (i : Int) : Finset (Fin v.blocks.length) :=
  {k | i ∈ v.blocks[k].positions}

/-- The place in the buffer where a block keeps the scalar of a position. -/
def place (v : BlockVector K) (k : Fin v.blocks.length) (i : Int) : Nat :=
  total ((v.blocks.take k).map Span.length) + (i - v.blocks[k].start).toNat

section
variable {v w : BlockVector K} {i : Int}

theorem mem_covering {k : Fin v.blocks.length} :
    k ∈ v.covering i ↔ v.blocks[k].start ≤ i ∧ i < v.blocks[k].stop := by
  rw [covering, Finset.mem_filter, Span.mem_positions]
  exact and_iff_right (Finset.mem_univ k)

/-- The place of a position that a block contains is in the buffer. -/
theorem WellFormed.place_lt (h : v.WellFormed) {k : Fin v.blocks.length} (hk : k ∈ v.covering i) :
    v.place k i < v.scalars.length := by
  rw [mem_covering] at hk
  have hrun := total_take_add_getElem_le (v.blocks.map Span.length) (k := k) (by simp)
  rw [← List.map_take, List.getElem_map, h] at hrun
  have hin : (i - v.blocks[k].start).toNat < v.blocks[k].length := by
    rw [Span.length]
    omega
  exact (Nat.add_lt_add_left hin _).trans_le hrun

/-- The pieces by index: a block, and the run of the buffer behind the runs of earlier blocks. -/
theorem pieces_eq_ofFn (v : BlockVector K) :
    v.pieces = List.ofFn fun k : Fin v.blocks.length =>
      (v.blocks[k], (v.scalars.drop (total ((v.blocks.take k).map Span.length))).take
        v.blocks[k].length) := by
  refine List.ext_getElem (by simp [pieces]) fun k h₁ h₂ => ?_
  have hk : k < (v.blocks.map Span.length).length := by simpa using h₂
  simp only [pieces, List.getElem_zip, getElem_runs hk, List.getElem_ofFn, List.getElem_map,
    List.map_take, Fin.getElem_fin]

/-- An entry is the sum of what the blocks that contain the position store for it. -/
theorem entry_eq_sum [AddCommMonoid K] (v : BlockVector K) (i : Int) :
    v.entry i = ∑ k ∈ v.covering i, v.scalars.getD (v.place k i) 0 := by
  rw [entry, pieces_eq_ofFn, List.map_ofFn, List.sum_ofFn, covering, Finset.sum_filter]
  refine Finset.sum_congr rfl fun k _ => ?_
  by_cases hi : i ∈ v.blocks[k].positions
  · rw [if_pos hi]
    rw [Span.mem_positions] at hi
    have hin : (i - v.blocks[k].start).toNat < v.blocks[k].length := by
      rw [Span.length]
      omega
    simp only [Function.comp_apply, Span.pick_of_mem hi, List.getD_eq_getElem?_getD, place,
      List.getElem?_take_of_lt hin, List.getElem?_drop]
  · rw [if_neg hi]
    rw [Span.mem_positions] at hi
    exact Span.pick_of_notMem hi _ _

/-! ## Uniform arithmetic -/

/-- What is done to every scalar is done to the scalars that make up an entry. -/
theorem WellFormed.entry_map [AddCommMonoid K] (h : v.WellFormed) (f : K → K) (i : Int) :
    (v.map f).entry i = ∑ k ∈ v.covering i, f (v.scalars.getD (v.place k i) 0) := by
  rw [entry_eq_sum]
  refine Finset.sum_congr rfl fun k hk => ?_
  have hlt : v.place k i < v.scalars.length := h.place_lt hk
  change (v.scalars.map f).getD (v.place k i) 0 = _
  rw [List.getD_eq_getElem _ _ (by simpa using hlt), List.getD_eq_getElem _ _ hlt,
    List.getElem_map]

end

section
variable [CommRing K] {v w : BlockVector K}

theorem WellFormed.entry_map_neg (hw : w.WellFormed) (i : Int) :
    (w.map (-·)).entry i = -w.entry i := by
  rw [hw.entry_map, entry_eq_sum, Finset.sum_neg_distrib]

theorem WellFormed.entry_sub (hv : v.WellFormed) (hw : w.WellFormed) (i : Int) :
    (v - w).entry i = v.entry i - w.entry i := by
  rw [sub_eq_add_map, hv.entry_add, hw.entry_map_neg, sub_eq_add_neg]

theorem WellFormed.entry_scale (hv : v.WellFormed) (c : K) (i : Int) :
    (v.scale c).entry i = c * v.entry i := by
  rw [scale, hv.entry_map, entry_eq_sum, mul_comm, Finset.sum_mul]

/-- A number added to every scalar is added to an entry once for every block that covers it. -/
theorem WellFormed.entry_raise (hv : v.WellFormed) (c : K) (i : Int) :
    (v.raise c).entry i = v.entry i + (v.covering i).card • c := by
  rw [raise, hv.entry_map, entry_eq_sum, Finset.sum_add_distrib, Finset.sum_const]

theorem WellFormed.entry_lower (hv : v.WellFormed) (c : K) (i : Int) :
    (v.lower c).entry i = v.entry i - (v.covering i).card • c := by
  rw [lower, hv.entry_map, entry_eq_sum, Finset.sum_sub_distrib, Finset.sum_const]

/-- Subtracting a number undoes adding it. -/
theorem lower_raise (v : BlockVector K) (c : K) : (v.raise c).lower c = v := by
  simp [raise, lower, map, Function.comp_def]

/-- Adding a number undoes subtracting it. -/
theorem raise_lower (v : BlockVector K) (c : K) : (v.lower c).raise c = v := by
  simp [raise, lower, map, Function.comp_def]

end

/-! ## Materialization -/

section
variable {v w : BlockVector K} {n : Int}

/-- The vector without blocks is neutral for the records themselves. -/
theorem add_zero_eq (v : BlockVector K) : v + 0 = v := by
  change (⟨v.scalars ++ [], v.blocks ++ []⟩ : BlockVector K) = v
  rw [List.append_nil, List.append_nil]

theorem Regular.sub [Neg K] (hv : v.Regular) (hw : w.Regular) : (v - w).Regular :=
  hv.add (hw.map _)

theorem Regular.dimension_sub [Neg K] (hv : v.Regular) (hw : w.Regular) :
    (v - w).dimension = max v.dimension w.dimension := by
  rw [sub_eq_add_map, hv.dimension_add (hw.map _)]
  rfl

/-- A regular vector is materialized by listing what its entries are known to be. -/
theorem Regular.dense_ofFn [AddCommMonoid K] (h : v.Regular) (hn : v.dimension ≤ n)
    {f : Fin n.toNat → K} (hf : ∀ i : Fin n.toNat, v.entry i = f i) :
    v.dense n = .ok (List.ofFn f) := by
  rw [h.dense_eq hn]
  exact congrArg (Except.ok <| List.ofFn ·) (funext hf)

/-- Materialization refuses the lengths below the dimension, and no others. -/
theorem Regular.dense_eq_error_iff [AddCommMonoid K] (h : v.Regular) {e : Error} :
    v.dense n = .error e ↔ n < v.dimension ∧ e = .tooFewEntries v.dimension n := by
  by_cases hn : n < v.dimension
  · rw [dense, if_pos hn, Except.error.injEq, eq_comm]
    exact (and_iff_right hn).symm
  · rw [h.dense_eq (not_lt.1 hn)]
    constructor
    · intro he
      cases he
    · intro he
      exact absurd he.1 hn

end

/-- Materialization is refused below the dimension only. Where two vectors are both materialized,
an entry is the sum over the blocks that cover it of the scalar each of them stores for it; sums,
differences and multiples are materialized entry by entry, the vector without blocks is neutral, and
a number added to the scalars is added to an entry once for every block that covers it. -/
theorem dense_linear [CommRing K] {v w : BlockVector K} (hv : v.Regular) (hw : w.Regular) (c : K) :
    (∀ n e, v.dense n = .error e ↔ n < v.dimension ∧ e = .tooFewEntries v.dimension n) ∧
    ∀ n, v.dimension ≤ n → w.dimension ≤ n → ∃ xs ys, v.dense n = .ok xs ∧ w.dense n = .ok ys ∧
      xs.length = n.toNat ∧ ys.length = n.toNat ∧
      (∀ i < xs.length, (∀ k ∈ v.covering i, v.place k i < v.scalars.length) ∧
        xs.getD i 0 = ∑ k ∈ v.covering i, v.scalars.getD (v.place k i) 0) ∧
      (v + w).dense n = .ok (Dense.add xs ys) ∧
      (v - w).dense n = .ok (Dense.sub xs ys) ∧
      (v + w - w).dense n = .ok xs ∧
      (v.scale c).dense n = .ok (Dense.smul c xs) ∧
      (-v).dense n = .ok (xs.map (-·)) ∧
      (0 + v).dense n = .ok xs ∧ (v + 0).dense n = .ok xs ∧
      (v.raise c).dense n = .ok (xs.mapIdx fun i x => x + (v.covering i).card • c) ∧
      (v.lower c).dense n = .ok (xs.mapIdx fun i x => x - (v.covering i).card • c) ∧
      ((v.raise c).lower c).dense n = .ok xs ∧ ((v.lower c).raise c).dense n = .ok xs := by
  refine ⟨fun n e => hv.dense_eq_error_iff, fun n hvn hwn => ?_⟩
  have hxs := hv.dense_eq hvn
  have hmax : max v.dimension w.dimension ≤ n := max_le hvn hwn
  have hadd : (v + w).dimension ≤ n := by rwa [hv.dimension_add hw]
  have hsub : (v - w).dimension ≤ n := by rwa [hv.dimension_sub hw]
  have hback : (v + w - w).dimension ≤ n := by
    rw [(hv.add hw).dimension_sub hw, hv.dimension_add hw]
    exact max_le hmax hwn
  refine ⟨_, _, hxs, hw.dense_eq hwn, List.length_ofFn, List.length_ofFn, fun i hi =>
    ⟨fun k => hv.wellFormed.place_lt, ?_⟩, ?_, ?_, ?_, ?_, ?_, hxs, ?_, ?_, ?_, ?_, ?_⟩
  · rw [List.getD_eq_getElem _ _ hi, List.getElem_ofFn]
    exact v.entry_eq_sum i
  · rw [Dense.add_ofFn]
    exact (hv.add hw).dense_ofFn hadd fun i => hv.wellFormed.entry_add w i
  · rw [Dense.sub_ofFn]
    exact (hv.sub hw).dense_ofFn hsub fun i => hv.wellFormed.entry_sub hw.wellFormed i
  · refine ((hv.add hw).sub hw).dense_ofFn hback fun i => ?_
    rw [(hv.add hw).wellFormed.entry_sub hw.wellFormed, hv.wellFormed.entry_add,
      add_sub_cancel_right]
  · rw [Dense.smul_ofFn]
    exact (hv.map _).dense_ofFn hvn fun i => hv.wellFormed.entry_scale c i
  · rw [List.map_ofFn]
    refine (hv.map _).dense_ofFn hvn fun i => ?_
    exact (hv.wellFormed.entry_scale (-1) i).trans (neg_one_mul _)
  · rw [add_zero_eq]
    exact hxs
  · rw [mapIdx_ofFn]
    exact (hv.map _).dense_ofFn hvn fun i => hv.wellFormed.entry_raise c i
  · rw [mapIdx_ofFn]
    exact (hv.map _).dense_ofFn hvn fun i => hv.wellFormed.entry_lower c i
  · rw [lower_raise]
    exact hxs
  · rw [raise_lower]
    exact hxs

/-- Two blocks that overlap, an inverted one between them and an empty one behind them. -/
theorem dense_linear_overlapping :
    let v : BlockVector ℤ := ⟨[1, 2, 3, 4], [⟨0, 2⟩, ⟨7, 5⟩, ⟨1, 3⟩, ⟨4, 4⟩]⟩
    let w : BlockVector ℤ := ⟨[5], [⟨3, 4⟩]⟩
    v.Regular ∧ w.Regular ∧ v.dimension = 5 ∧ w.dimension = 4 ∧ (v.covering 1).card = 2 ∧
      v.dense 6 = .ok [1, 5, 4, 0, 0, 0] ∧ (v + w).dense 6 = .ok [1, 5, 4, 5, 0, 0] ∧
      (v.raise 10).dense 6 = .ok [11, 25, 14, 0, 0, 0] ∧
      v.dense 4 = .error (.tooFewEntries 5 4) := by
  intro v w
  have hv : v.Regular := ⟨rfl, by decide⟩
  have hw : w.Regular := ⟨rfl, by decide⟩
  have hcovering : (v.covering 1).card = 2 := by decide
  have hdv : v.dense 6 = .ok [1, 5, 4, 0, 0, 0] := by decide
  have hdw : w.dense 6 = .ok [0, 0, 0, 5, 0, 0] := by decide
  obtain ⟨hrefused, hdense⟩ := dense_linear hv hw 10
  obtain ⟨xs, ys, hxs, hys, -, -, -, hadd, -, -, -, -, -, -, hraise, -⟩ :=
    hdense 6 (by decide) (by decide)
  obtain rfl := Except.ok.inj (hdv.symm.trans hxs)
  obtain rfl := Except.ok.inj (hdw.symm.trans hys)
  have hraised : [1, 5, 4, 0, 0, 0].mapIdx (fun i x => x + (v.covering i).card • (10 : ℤ)) =
      [11, 25, 14, 0, 0, 0] := by decide
  exact ⟨hv, hw, rfl, rfl, hcovering, hdv, hadd, hraise.trans (congrArg _ hraised),
    (hrefused 4 _).2 ⟨by decide, rfl⟩⟩

end BlockVector

end LeastSquares
