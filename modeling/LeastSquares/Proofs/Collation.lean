import LeastSquares.Proofs.Entries

/-!
# Collated rows

A matrix that stacks block vectors of one layout has the entries of its rows
(`BlockMatrix.entry_collate`). Layouts are compared by the positions they cover, so spans without a
position may differ (`BlockVector.entry_of_alike`), and scalars are regrouped from rows to
blocks (`BlockMatrix.entry_collateScalars`).
-/

namespace LeastSquares

variable {K : Type}

/-! ## Layouts -/

/-- Spans that are alike place values alike. -/
theorem Span.pick_of_alike {β : Type} {s t : Span} (h : s.alike t = true) (d : β)
    (values : List β) (i : Int) : s.pick d values i = t.pick d values i := by
  simp only [alike, Bool.and_eq_true, Bool.or_eq_true, beq_iff_eq, length] at h
  obtain ⟨hlen, hempty | hstart⟩ := h
  · rw [pick_of_notMem (by omega), pick_of_notMem (by omega)]
  · simp only [pick, hstart]
    by_cases hi : t.start ≤ i ∧ i < t.stop
    · rw [if_pos (by omega), if_pos hi]
    · rw [if_neg (by omega), if_neg hi]

theorem Span.length_eq_of_alike {s t : Span} (h : s.alike t = true) : s.length = t.length := by
  simp only [alike, Bool.and_eq_true, beq_iff_eq] at h
  exact h.1

theorem forall₂_of_sameLayout {ss ts : List Span} (h : sameLayout ss ts = true) :
    List.Forall₂ (fun s t => s.alike t = true) ss ts := by
  simp only [sameLayout, Bool.and_eq_true, beq_iff_eq, List.all_eq_true] at h
  obtain ⟨hlen, hall⟩ := h
  rw [List.forall₂_iff_zip]
  refine ⟨hlen, fun {s t} hst => hall _ ?_⟩
  rw [← List.map_uncurry_zip_eq_zipWith]
  exact List.mem_map.2 ⟨(s, t), hst, rfl⟩

theorem sameLayout_self (ss : List Span) : sameLayout ss ss = true := by
  have hall : ∀ b ∈ List.zipWith Span.alike ss ss, id b = true := by
    intro b hb
    rw [List.zipWith_self] at hb
    obtain ⟨s, -, rfl⟩ := List.mem_map.1 hb
    exact Span.alike_self s
  rw [sameLayout, beq_self_eq_true, List.all_eq_true.2 hall]
  rfl

theorem map_length_of_alike {ss ts : List Span}
    (h : List.Forall₂ (fun s t => s.alike t = true) ss ts) :
    ss.map Span.length = ts.map Span.length := by
  induction h with
  | nil => rfl
  | cons hst _ ih => rw [List.map_cons, List.map_cons, Span.length_eq_of_alike hst, ih]

/-- A vector has the entries that its scalars make in any layout that covers the same positions. -/
theorem BlockVector.entry_of_alike [Zero K] [Add K] {blocks layout : List Span}
    (h : List.Forall₂ (fun s t => s.alike t = true) blocks layout) (scalars : List K) (i : Int) :
    (⟨scalars, blocks⟩ : BlockVector K).entry i = (⟨scalars, layout⟩ : BlockVector K).entry i := by
  induction h generalizing scalars with
  | nil => rfl
  | @cons s t ss ts hst _ ih =>
    have hrest := ih (scalars.drop t.length)
    simp only [entry, pieces] at hrest
    simp only [entry, pieces, List.map_cons, runs, List.zip_cons_cons, List.sum_cons,
      Span.length_eq_of_alike hst, Span.pick_of_alike hst, hrest]

/-! ## Regrouped scalars -/

namespace BlockMatrix

/-- Parts of one length, one after the other, are read as rows. -/
theorem rowsOf_flatten {r c : Nat} {parts : List (List K)} (hr : parts.length = r)
    (hc : ∀ part ∈ parts, part.length = c) : rowsOf r c parts.flatten = parts := by
  have hlengths : parts.map List.length = List.replicate r c := by
    rw [List.map_congr_left hc, List.map_const', hr]
  rw [rowsOf, ← hlengths, runs_flatten]

/-- What buffers of one layout hold for its first block, and what they hold for the others. -/
theorem split_buffers {block : Span} {layout : List Span} {buffers : List (List K)}
    (h : ∀ buffer ∈ buffers, total ((block :: layout).map Span.length) = buffer.length) :
    (∀ part ∈ buffers.map (·.take block.length), part.length = block.length) ∧
      ∀ buffer ∈ buffers.map (·.drop block.length),
        total (layout.map Span.length) = buffer.length := by
  have htotal : ∀ buffer ∈ buffers,
      block.length + total (layout.map Span.length) = buffer.length := h
  refine ⟨fun part hpart => ?_, fun buffer hbuffer => ?_⟩
  · obtain ⟨buffer, hb, rfl⟩ := List.mem_map.1 hpart
    have := htotal buffer hb
    rw [List.length_take]
    omega
  · obtain ⟨buffer, hb, rfl⟩ := List.mem_map.1 hbuffer
    have := htotal buffer hb
    rw [List.length_drop]
    omega

theorem length_flatten_parts {block : Span} {buffers : List (List K)}
    (h : ∀ part ∈ buffers.map (·.take block.length), part.length = block.length) :
    (buffers.map (·.take block.length)).flatten.length =
      (⟨Span.ofLength 0 buffers.length, block⟩ : Tile).size := by
  rw [length_flatten_rows h, List.length_map, Tile.size, Span.length_toStride,
    Span.length_toStride, Span.length_ofLength]

/-- The panel of the first tile, whose scalars come first, and the panels of the others. -/
theorem panels_cons {t : Tile} {xs : List K} (h : xs.length = t.size) (ys : List K)
    (tiles : List Tile) :
    (⟨xs ++ ys, t :: tiles⟩ : BlockMatrix K).panels =
      (t, rowsOf t.rows.length t.columns.length xs) :: (⟨ys, tiles⟩ : BlockMatrix K).panels := by
  simp [panels, runs, ← h]

section
variable [AddCommMonoid K]

/-- The entries of the first panel are added to those of the others. -/
theorem entry_cons {t : Tile} {xs : List K} (h : xs.length = t.size) (ys : List K)
    (tiles : List Tile) (i j : Int) :
    (⟨xs ++ ys, t :: tiles⟩ : BlockMatrix K).entry i j =
      panelEntry (t, rowsOf t.rows.length t.columns.length xs) i j +
        (⟨ys, tiles⟩ : BlockMatrix K).entry i j := by
  rw [entry, panels_cons h, List.map_cons, List.sum_cons]
  rfl

/-- Regrouped from rows to blocks, scalars make the entries of the rows. -/
theorem entry_collateScalars {layout : List Span} {buffers : List (List K)}
    (h : ∀ buffer ∈ buffers, total (layout.map Span.length) = buffer.length) {i : Nat}
    (hi : i < buffers.length) (j : Int) :
    (⟨collateScalars (layout.map Span.length) buffers,
        layout.map fun block : Span => ⟨Span.ofLength 0 buffers.length, block⟩⟩ :
        BlockMatrix K).entry i j =
      (⟨buffers[i], layout⟩ : BlockVector K).entry j := by
  induction layout generalizing buffers with
  | nil => rfl
  | cons block layout ih =>
    obtain ⟨hparts, hrest⟩ := split_buffers h
    have hpick : (Span.ofLength 0 buffers.length).pick [] (buffers.map (·.take block.length)) i =
        buffers[i].take block.length := by
      rw [Span.pick_of_mem (by simp only [Span.ofLength]; omega)]
      simp [Span.ofLength, hi]
    have hih := ih hrest (by simpa using hi)
    simp only [List.length_map, List.getElem_map] at hih
    simp only [List.map_cons, collateScalars]
    rw [entry_cons (length_flatten_parts hparts), hih, panelEntry, Span.length_toStride,
      Span.length_toStride, Span.length_ofLength, rowsOf_flatten (List.length_map _) hparts]
    simp only [Span.toSpan_toStride, hpick]
    rfl

end

theorem wellFormed_collateScalars {layout : List Span} {buffers : List (List K)}
    (h : ∀ buffer ∈ buffers, total (layout.map Span.length) = buffer.length) :
    (⟨collateScalars (layout.map Span.length) buffers,
      layout.map fun block : Span => ⟨Span.ofLength 0 buffers.length, block⟩⟩ :
        BlockMatrix K).WellFormed := by
  induction layout generalizing buffers with
  | nil => rfl
  | cons block layout ih =>
    obtain ⟨hparts, hrest⟩ := split_buffers h
    have hsize := length_flatten_parts hparts
    have hih := ih hrest
    simp only [WellFormed, required, List.length_map] at hih
    simp only [WellFormed, required, List.map_cons, total_cons, collateScalars, List.length_append,
      hsize, hih]

/-- Rows are collated where they have the layout of the first one, which has a block. -/
theorem collate_eq_ok {first : BlockVector K} {rest : List (BlockVector K)} {A : BlockMatrix K} :
    collate (first :: rest) = .ok A ↔
      (∀ row ∈ first :: rest, sameLayout row.blocks first.blocks = true) ∧ first.blocks ≠ [] ∧
        A = ⟨collateScalars (first.blocks.map Span.length) ((first :: rest).map (·.scalars)),
          first.blocks.map fun block : Span => ⟨Span.ofLength 0 (rest.length + 1), block⟩⟩ := by
  constructor
  · intro h
    simp only [collate] at h
    split at h
    · cases h
    · rename_i hlayout
      split at h
      · cases h
      · rename_i hempty
        cases h
        simp only [Bool.not_eq_true, Bool.not_eq_false', List.all_eq_true] at hlayout
        exact ⟨hlayout, fun hnil => hempty (by rw [hnil]; rfl), rfl⟩
  · rintro ⟨hlayout, hblocks, rfl⟩
    have hall := List.all_eq_true.2 hlayout
    have hempty : first.blocks.isEmpty = false := by simpa using hblocks
    simp only [collate, hall, hempty]
    rfl

/-- The scalars of rows, in the layout of the first one. -/
theorem total_eq_of_sameLayout {first : BlockVector K} {rows : List (BlockVector K)}
    (hlayout : ∀ row ∈ rows, sameLayout row.blocks first.blocks = true)
    (hwf : ∀ row ∈ rows, row.WellFormed) :
    ∀ buffer ∈ rows.map (·.scalars), total (first.blocks.map Span.length) = buffer.length := by
  intro buffer hbuffer
  obtain ⟨row, hrow, rfl⟩ := List.mem_map.1 hbuffer
  rw [← map_length_of_alike (forall₂_of_sameLayout (hlayout row hrow))]
  exact hwf row hrow

/-- A matrix of collated rows is well formed and has a tile for each block of the first row. -/
theorem wellFormed_collate {first : BlockVector K} {rest : List (BlockVector K)}
    {A : BlockMatrix K} (h : collate (first :: rest) = .ok A)
    (hwf : ∀ row ∈ first :: rest, row.WellFormed) :
    A.WellFormed ∧
      A.tiles = first.blocks.map
        (fun block : Span => ⟨Span.ofLength 0 (rest.length + 1), block⟩) := by
  obtain ⟨hlayout, -, rfl⟩ := collate_eq_ok.1 h
  have hwell := wellFormed_collateScalars (total_eq_of_sameLayout hlayout hwf)
  rw [List.length_map] at hwell
  exact ⟨hwell, rfl⟩

/-- Collated rows whose first one lies on an axis make a regular matrix of as many rows on it. -/
theorem regular_collate {first : BlockVector K} {rest : List (BlockVector K)}
    {A : BlockMatrix K} (h : collate (first :: rest) = .ok A)
    (hwf : ∀ row ∈ first :: rest, row.WellFormed) {n : Nat}
    (hon : ∀ block ∈ first.blocks, block.On n) :
    A.Regular ∧ A.rows = (rest.length + 1 : Nat) ∧ A.columns ≤ n := by
  obtain ⟨-, hblocks, -⟩ := collate_eq_ok.1 h
  obtain ⟨hwell, htiles⟩ := wellFormed_collate h hwf
  refine ⟨⟨⟨hwell, fun t ht => ?_⟩, fun t ht => ?_⟩,
    rows_eq_of_stop (by simpa [htiles] using hblocks) fun t ht => ?_,
    getD_max?_le (by omega) fun b hb => ?_⟩
  · rw [htiles] at ht
    obtain ⟨block, hb, rfl⟩ := List.mem_map.1 ht
    refine ⟨⟨le_refl 0, ?_⟩, (hon block hb).nonneg⟩
    simp only [Span.toSpan_toStride, Span.ofLength]
    omega
  · rw [htiles] at ht
    obtain ⟨block, -, rfl⟩ := List.mem_map.1 ht
    exact ⟨Span.solid_toStride _, Span.solid_toStride block⟩
  · rw [htiles] at ht
    obtain ⟨block, -, rfl⟩ := List.mem_map.1 ht
    exact zero_add _
  · rw [htiles, List.map_map] at hb
    obtain ⟨block, hblock, rfl⟩ := List.mem_map.1 hb
    exact (hon block hblock).stop_le

/-- A matrix of collated rows has their entries. -/
theorem entry_collate [AddCommMonoid K] {first : BlockVector K} {rest : List (BlockVector K)}
    {A : BlockMatrix K} (h : collate (first :: rest) = .ok A)
    (hwf : ∀ row ∈ first :: rest, row.WellFormed) (i : Nat) (hi : i < (first :: rest).length)
    (j : Int) : A.entry i j = (first :: rest)[i].entry j := by
  obtain ⟨hlayout, -, rfl⟩ := collate_eq_ok.1 h
  have hentry := entry_collateScalars (total_eq_of_sameLayout hlayout hwf) (i := i)
    (by simpa using hi) j
  simp only [List.length_map, List.getElem_map] at hentry
  refine hentry.trans ?_
  exact (BlockVector.entry_of_alike
    (forall₂_of_sameLayout (hlayout _ (List.getElem_mem hi))) _ j).symm

/-- Rows of one layout on an axis, which has a block, are collated to a regular matrix of as many
rows on that axis. -/
theorem collate_spec [AddCommMonoid K] {first : BlockVector K} {rest : List (BlockVector K)}
    (hwf : ∀ row ∈ first :: rest, row.WellFormed)
    (hlayout : ∀ row ∈ first :: rest, sameLayout row.blocks first.blocks = true)
    (hblocks : first.blocks ≠ []) {n : Nat} (hon : ∀ block ∈ first.blocks, block.On n) :
    ∃ A, collate (first :: rest) = .ok A ∧ A.Regular ∧ A.rows = (rest.length + 1 : Nat) ∧
      A.columns ≤ n ∧ ∀ (i : Nat) (hi : i < (first :: rest).length) (j : Int),
        A.entry i j = (first :: rest)[i].entry j := by
  have hA := collate_eq_ok.2 ⟨hlayout, hblocks, rfl⟩
  obtain ⟨hregular, hrows, hcolumns⟩ := regular_collate hA hwf hon
  exact ⟨_, hA, hregular, hrows, hcolumns, entry_collate hA hwf⟩

/-- Rows of the same blocks, which are on an axis, are collated to the matrix of their entries. -/
theorem collate_range [AddCommMonoid K] {row : Nat → BlockVector K} {m n : Nat} (hm : m ≠ 0)
    {spans : List Span} (hwf : ∀ i < m, (row i).WellFormed)
    (hlayout : ∀ i < m, (row i).blocks = spans) (hspans : spans ≠ [])
    (hon : ∀ span ∈ spans, span.On n) :
    ∃ A, collate ((List.range m).map row) = .ok A ∧ A.Regular ∧ A.rows = m ∧ A.columns ≤ n ∧
      ∀ i < m, ∀ j : Int, A.entry i j = (row i).entry j := by
  obtain ⟨k, rfl⟩ := Nat.exists_eq_succ_of_ne_zero hm
  have hcons : (List.range (k + 1)).map row =
      row 0 :: (List.range k).map fun i => row (i + 1) := by
    rw [List.range_succ_eq_map, List.map_cons, List.map_map]
    rfl
  have hfirst := hlayout 0 k.succ_pos
  have hmem : ∀ r ∈ row 0 :: (List.range k).map fun i => row (i + 1),
      r.WellFormed ∧ sameLayout r.blocks (row 0).blocks = true := by
    intro r hr
    rw [← hcons] at hr
    obtain ⟨i, hi, rfl⟩ := List.mem_map.1 hr
    have hi := List.mem_range.1 hi
    rw [hlayout i hi, hfirst]
    exact ⟨hwf i hi, sameLayout_self spans⟩
  obtain ⟨A, hA, hregular, hrows, hcolumns, hentry⟩ := collate_spec (fun r hr => (hmem r hr).1)
    (fun r hr => (hmem r hr).2) (hfirst ▸ hspans) (hfirst ▸ hon)
  rw [← hcons] at hA
  rw [List.length_map, List.length_range] at hrows
  refine ⟨A, hA, hregular, hrows, hcolumns, fun i hi j => ?_⟩
  have hij := hentry i (by simpa using hi) j
  simp only [← hcons, List.getElem_map, List.getElem_range] at hij
  exact hij

end BlockMatrix

end LeastSquares
