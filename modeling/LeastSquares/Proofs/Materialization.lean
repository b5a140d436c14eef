import LeastSquares.BlockVector
import LeastSquares.Proofs.Axis

/-!
# Materialized block vectors

A block vector has an entry at every integer position (`BlockVector.entry`): the sum of what its
pieces say about the position. Materializing a regular vector lists its entries
(`BlockVector.Regular.dense_eq`), so whatever is proved of entries is proved of dense vectors.
Entries add up under addition (`BlockVector.WellFormed.entry_add`), and there is none outside of the
dimension. The constructors make well-formed vectors (`BlockVector.of_ofBlock`,
`BlockVector.regular_ofList`).
-/

namespace LeastSquares

variable {K : Type}

/-! ## Largest bounds -/

theorem le_getD_max? {xs : List Int} {x : Int} (h : x ∈ xs) : x ≤ xs.max?.getD 0 := by
  obtain ⟨m, hm⟩ := Option.isSome_iff_exists.1 (List.isSome_max?_of_mem h)
  rw [hm]
  exact (List.max?_eq_some_iff.1 hm).2 x h

theorem getD_max?_le {xs : List Int} {n : Int} (h0 : 0 ≤ n) (h : ∀ x ∈ xs, x ≤ n) :
    xs.max?.getD 0 ≤ n := by
  cases hm : xs.max? with
  | none => exact h0
  | some m => exact h m (List.max?_mem hm)

theorem getD_max?_nonneg {xs : List Int} (h : ∀ x ∈ xs, 0 ≤ x) : 0 ≤ xs.max?.getD 0 := by
  cases hm : xs.max? with
  | none => exact le_refl 0
  | some m => exact h m (List.max?_mem hm)

theorem getD_max?_append {xs ys : List Int} (hx : ∀ x ∈ xs, 0 ≤ x) (hy : ∀ y ∈ ys, 0 ≤ y) :
    (xs ++ ys).max?.getD 0 = max (xs.max?.getD 0) (ys.max?.getD 0) := by
  have hxy : ∀ x ∈ xs ++ ys, 0 ≤ x := fun x h => (List.mem_append.1 h).elim (hx x) (hy x)
  refine le_antisymm (getD_max?_le ?_ fun x h => ?_) (max_le ?_ ?_)
  · exact (getD_max?_nonneg hx).trans (le_max_left _ _)
  · rcases List.mem_append.1 h with h | h
    · exact (le_getD_max? h).trans (le_max_left _ _)
    · exact (le_getD_max? h).trans (le_max_right _ _)
  · exact getD_max?_le (getD_max?_nonneg hxy) fun x h => le_getD_max? (List.mem_append_left _ h)
  · exact getD_max?_le (getD_max?_nonneg hxy) fun x h => le_getD_max? (List.mem_append_right _ h)

theorem getD_max?_map_add {xs : List Int} (h : xs ≠ []) (k : Int) :
    (xs.map (· + k)).max?.getD 0 = xs.max?.getD 0 + k := by
  obtain ⟨x, hx⟩ := List.exists_mem_of_ne_nil xs h
  obtain ⟨m, hm⟩ := Option.isSome_iff_exists.1 (List.isSome_max?_of_mem hx)
  obtain ⟨hmem, hle⟩ := List.max?_eq_some_iff.1 hm
  have hshift : (xs.map (· + k)).max? = some (m + k) := by
    refine List.max?_eq_some_iff.2 ⟨List.mem_map_of_mem hmem, fun y hy => ?_⟩
    obtain ⟨z, hz, rfl⟩ := List.mem_map.1 hy
    have := hle z hz
    omega
  rw [hm, hshift]
  rfl

/-! ## Sums of contributions -/

/-- Checked steps that each add an amount to an encoded value add all amounts. -/
theorem foldlM_add {M γ π : Type} [AddMonoid M] (encode : M → γ)
    (step : γ → π → Except Error γ) (amount : π → M) {ps : List π}
    (h : ∀ p ∈ ps, ∀ a, step (encode a) p = .ok (encode (a + amount p))) (a : M) :
    ps.foldlM step (encode a) = .ok (encode (a + (ps.map amount).sum)) := by
  induction ps generalizing a with
  | nil =>
    rw [List.map_nil, List.sum_nil, add_zero]
    rfl
  | cons p ps ih =>
    have hp := h p (List.mem_cons_self ..) a
    rw [List.foldlM_cons, hp, List.map_cons, List.sum_cons, ← add_assoc]
    exact ih (fun q hq => h q (List.mem_cons_of_mem _ hq)) _

/-- Checked steps that each add an amount to an encoded value, where they are not refused, add all
amounts, and what comes with each step is known of all. -/
theorem of_foldlM_add {M γ π : Type} [AddMonoid M] {encode : M → γ}
    {step : γ → π → Except Error γ} {amount : π → M} {good : π → Prop} {ps : List π}
    (h : ∀ p ∈ ps, ∀ a c, step (encode a) p = .ok c → good p ∧ c = encode (a + amount p)) {a : M}
    {c : γ} (hfold : ps.foldlM step (encode a) = .ok c) :
    (∀ p ∈ ps, good p) ∧ c = encode (a + (ps.map amount).sum) := by
  induction ps generalizing a with
  | nil =>
    cases hfold
    exact ⟨by simp, by rw [List.map_nil, List.sum_nil, add_zero]⟩
  | cons p ps ih =>
    obtain ⟨b, hstep, hfold⟩ := bind_eq_ok.1 hfold
    obtain ⟨hp, rfl⟩ := h p (List.mem_cons_self ..) a b hstep
    obtain ⟨hps, hc⟩ := ih (fun q hq => h q (List.mem_cons_of_mem _ hq)) hfold
    refine ⟨List.forall_mem_cons.2 ⟨hp, hps⟩, ?_⟩
    rw [hc, List.map_cons, List.sum_cons, add_assoc]

/-- A sum of functions is taken at each argument. -/
theorem sum_map_apply {ι π : Type} [AddMonoid K] (f : π → ι → K) (ps : List π) (i : ι) :
    (ps.map f).sum i = (ps.map fun p => f p i).sum := by
  induction ps with
  | nil => rfl
  | cons p ps ih => simp [ih]

/-! ## Owners of runs -/

theorem total_append (ms ns : List Nat) : total (ms ++ ns) = total ms + total ns := by
  induction ms with
  | nil => simp
  | cons m ms ih => rw [List.cons_append, total_cons, total_cons, ih, Nat.add_assoc]

/-- Lists put together are cut into the same lists again. -/
theorem runs_flatten (parts : List (List K)) :
    runs (parts.map List.length) parts.flatten = parts := by
  induction parts with
  | nil => rfl
  | cons part parts ih => simp [runs, ih]

/-- Paired with the runs of a buffer, every owner has as many values as its size. -/
theorem mem_zip_runs {π : Type} {size : π → Nat} {owners : List π} {xs : List K}
    (h : total (owners.map size) ≤ xs.length) {p : π × List K}
    (hp : p ∈ owners.zip (runs (owners.map size) xs)) : p.1 ∈ owners ∧ p.2.length = size p.1 := by
  induction owners generalizing xs with
  | nil => cases hp
  | cons a owners ih =>
    simp only [List.map_cons, total_cons] at h
    simp only [List.map_cons, runs, List.zip_cons_cons, List.mem_cons] at hp
    rcases hp with rfl | hp
    · exact ⟨List.mem_cons_self .., by simp only [List.length_take]; omega⟩
    · obtain ⟨hmem, hlen⟩ := ih (by simp only [List.length_drop]; omega) hp
      exact ⟨List.mem_cons_of_mem _ hmem, hlen⟩

/-- The rows that a buffer is read as have the given length. -/
theorem length_of_mem_rowsOf {r c : Nat} {xs : List K} (h : xs.length = r * c) {row : List K}
    (hr : row ∈ rowsOf r c xs) : row.length = c := by
  induction r generalizing xs with
  | zero => cases hr
  | succ r ih =>
    rw [Nat.succ_mul] at h
    simp only [rowsOf, List.replicate_succ, runs, List.mem_cons] at hr
    rcases hr with rfl | hr
    · simp only [List.length_take]
      omega
    · exact ih (by simp only [List.length_drop]; omega) hr

namespace BlockVector

/-- The blocks own exactly the scalars that are stored. -/
def WellFormed (v : BlockVector K) : Prop := total (v.blocks.map Span.length) = v.scalars.length

instance (v : BlockVector K) : Decidable v.WellFormed := inferInstanceAs (Decidable (_ = _))

/-- A well-formed vector whose blocks have no negative bounds. -/
structure Regular (v : BlockVector K) : Prop where
  wellFormed : v.WellFormed
  nonneg : ∀ s ∈ v.blocks, s.Nonneg

/-- What a piece says about the positions of an axis. -/
def placed [Zero K] (n : Nat) (piece : Span × List K) (i : Fin n) : K := piece.1.pick 0 piece.2 i

/-- The entry at a position: what the pieces say about it, added up. -/
def entry [Zero K] [Add K] (v : BlockVector K) (i : Int) : K :=
  (v.pieces.map fun piece => piece.1.pick 0 piece.2 i).sum

section
variable {v w : BlockVector K}

theorem stop_le_dimension {s : Span} (hs : s ∈ v.blocks) : s.stop ≤ v.dimension :=
  le_getD_max? (List.mem_map_of_mem hs)

theorem Regular.dimension_nonneg (h : v.Regular) : 0 ≤ v.dimension := by
  refine getD_max?_nonneg fun x hx => ?_
  obtain ⟨s, hs, rfl⟩ := List.mem_map.1 hx
  exact (h.nonneg s hs).2

/-- A piece is a block with as many scalars as it has positions. -/
theorem WellFormed.mem_pieces (h : v.WellFormed) {piece : Span × List K}
    (hp : piece ∈ v.pieces) : piece.1 ∈ v.blocks ∧ piece.2.length = piece.1.length :=
  mem_zip_runs (le_of_eq h) hp

/-- The record of a sum holds the pieces of both vectors. -/
theorem WellFormed.pieces_add (hv : v.WellFormed) (w : BlockVector K) :
    (v + w).pieces = v.pieces ++ w.pieces := by
  simp only [pieces, scalars_add, blocks_add, List.map_append]
  rw [runs_append hv, List.zip_append (by simp)]

theorem WellFormed.add (hv : v.WellFormed) (hw : w.WellFormed) : (v + w).WellFormed := by
  rw [WellFormed, blocks_add, scalars_add, List.map_append, total_append, List.length_append, hv,
    hw]

theorem Regular.add (hv : v.Regular) (hw : w.Regular) : (v + w).Regular :=
  ⟨hv.wellFormed.add hw.wellFormed, fun s hs =>
    (List.mem_append.1 hs).elim (hv.nonneg s) (hw.nonneg s)⟩

theorem Regular.zero : (0 : BlockVector K).Regular := ⟨rfl, by simp⟩

theorem Regular.dimension_add (hv : v.Regular) (hw : w.Regular) :
    (v + w).dimension = max v.dimension w.dimension := by
  have hstop : ∀ {u : BlockVector K}, u.Regular → ∀ b ∈ u.blocks.map Span.stop, 0 ≤ b := by
    intro u hu b hb
    obtain ⟨s, hs, rfl⟩ := List.mem_map.1 hb
    exact (hu.nonneg s hs).2
  rw [dimension, blocks_add, List.map_append, getD_max?_append (hstop hv) (hstop hw)]
  rfl

/-- A block of a list of values has a position for each of them. -/
theorem of_ofBlock {scalars : List K} {block : Span} {v : BlockVector K}
    (h : ofBlock scalars block = .ok v) : v.WellFormed ∧ v.blocks = [block] := by
  unfold ofBlock at h
  split at h
  · rename_i hlen
    cases h
    exact ⟨hlen, rfl⟩
  · cases h

/-- Without negative bounds it is regular and reaches as far as the block. -/
theorem regular_of_ofBlock {scalars : List K} {block : Span} {v : BlockVector K}
    (h : ofBlock scalars block = .ok v) (hblock : block.Nonneg) :
    v.Regular ∧ v.dimension = block.stop := by
  obtain ⟨hwf, hblocks⟩ := of_ofBlock h
  refine ⟨⟨hwf, fun b hb => ?_⟩, ?_⟩
  · rw [hblocks, List.mem_singleton] at hb
    exact hb ▸ hblock
  · rw [dimension, hblocks]
    rfl

/-- A list is a vector of one block. -/
theorem regular_ofList (xs : List K) : (ofList xs).Regular := by
  refine ⟨?_, fun s hs => ?_⟩
  · simp [WellFormed, ofList]
  · rw [List.mem_singleton.1 hs]
    exact ⟨le_refl 0, by simp [Span.ofLength]⟩

/-- A function of the scalars acts on what the pieces hold. -/
theorem pieces_map (v : BlockVector K) (f : K → K) :
    (v.map f).pieces = v.pieces.map fun piece => (piece.1, piece.2.map f) := by
  simp only [pieces, scalars_map, blocks_map, runs_map, List.zip_map_right]
  rfl

theorem WellFormed.map (h : v.WellFormed) (f : K → K) : (v.map f).WellFormed := by
  rw [WellFormed, blocks_map, scalars_map, List.length_map]
  exact h

theorem Regular.map (h : v.Regular) (f : K → K) : (v.map f).Regular :=
  ⟨h.wellFormed.map f, h.nonneg⟩

/-- A difference is the sum with the vector of negated scalars. -/
theorem sub_eq_add_map [Neg K] (v w : BlockVector K) : v - w = v + w.map (-·) := rfl

/-- A vector is materialized to lengths that are at least its dimension and not negative, where its
pieces are accumulated on zeros. -/
theorem dense_eq_ok [Zero K] [Add K] {n : Int} {xs : List K} : v.dense n = .ok xs ↔
    v.dimension ≤ n ∧ 0 ≤ n ∧ scatter v.pieces (List.replicate n.toNat 0) = .ok xs := by
  unfold dense zeros
  constructor
  · intro h
    split at h
    · cases h
    · obtain ⟨zs, hzs, h⟩ := bind_eq_ok.1 h
      split at hzs
      · cases hzs
      · cases hzs
        exact ⟨by omega, by omega, h⟩
  · rintro ⟨hdim, hn, h⟩
    rw [if_neg (by omega), if_neg (by omega)]
    exact h

/-- A dense vector has as many entries as asked for. -/
theorem length_dense [Zero K] [Add K] {n : Int} {xs : List K} (h : v.dense n = .ok xs) :
    (xs.length : Int) = n := by
  obtain ⟨-, hn, h⟩ := dense_eq_ok.1 h
  have hlen := of_foldlM (P := fun acc : List K => acc.length = n.toNat)
    (fun _ _ _ _ hacc hstep => (Span.length_accumulate hstep).trans hacc) List.length_replicate h
  omega

variable [AddCommMonoid K]

/-- A regular vector has no entries before the first position or behind its dimension. -/
theorem Regular.entry_eq_zero (h : v.Regular) {i : Int} (hi : i < 0 ∨ v.dimension ≤ i) :
    v.entry i = 0 := by
  refine List.sum_eq_zero fun x hx => ?_
  obtain ⟨piece, hp, rfl⟩ := List.mem_map.1 hx
  have hb := (h.wellFormed.mem_pieces hp).1
  have := stop_le_dimension hb
  have := (h.nonneg _ hb).1
  exact Span.pick_of_notMem (by omega) _ _

@[simp] theorem entry_zero (i : Int) : (0 : BlockVector K).entry i = 0 := rfl

/-- Entries add up. -/
theorem WellFormed.entry_add (hv : v.WellFormed) (w : BlockVector K) (i : Int) :
    (v + w).entry i = v.entry i + w.entry i := by
  rw [entry, hv.pieces_add, List.map_append, List.sum_append]
  rfl

/-- A regular vector is materialized by listing its entries. -/
theorem Regular.dense_eq (h : v.Regular) {n : Int} (hn : v.dimension ≤ n) :
    v.dense n = .ok (List.ofFn fun i : Fin n.toNat => v.entry i) := by
  have h0 := h.dimension_nonneg
  have hstep : ∀ p ∈ v.pieces, ∀ f : Fin n.toNat → K,
      p.1.accumulate p.2 (List.ofFn f) = .ok (List.ofFn (f + placed n.toNat p)) := by
    intro p hp f
    obtain ⟨hb, hl⟩ := h.wellFormed.mem_pieces hp
    have := stop_le_dimension hb
    exact Span.accumulate_ofFn ⟨h.nonneg _ hb, by omega⟩ hl f
  have hfold := foldlM_add List.ofFn (fun acc (p : Span × List K) => p.1.accumulate p.2 acc)
    (placed n.toNat) hstep 0
  rw [dense_eq_ok, replicate_eq_ofFn]
  refine ⟨hn, by omega, hfold.trans ?_⟩
  congr 2
  funext i
  rw [zero_add, sum_map_apply]
  rfl

end

end BlockVector

end LeastSquares
