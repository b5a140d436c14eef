import LeastSquares.Proofs.JointAxes
import LeastSquares.Proofs.Reals

/-!
# Layouts of linear models

The Jacobian blocks of a residual are cut into rows, each row is embedded into joint coordinates,
and the rows are collated into the blocks of a matrix. What is cut by rows is put together by blocks
again (`BlockMatrix.collateScalars_rows`), so the matrix holds the blocks one after the other, each
in the columns of its variable (`LinearModel.LaidOut`, `Assignment.Blocks.laidOut`). This depends on
lengths alone and holds in any arithmetic: also that the dense form is zero in the columns that no
tile covers, which no addition reaches (`BlockMatrix.Regular.exists_dense`).

The main statement, `ResidualFactor.linearize_layout`: the linearization of a residual with entries
is not refused, and gives a model that is laid out by the Jacobian blocks, whatever they hold.
-/

namespace LeastSquares

variable {α : Type}

/-! ## Uncovered columns -/

namespace Span.On

variable {s : Span} {n : Nat}

/-- A part of a list that is replaced by as many elements, of which holds what holds of those of the
list. -/
theorem exists_update {β : Type} (hs : s.On n) {P : β → Prop}
    {change : List β → Except Error (List β)} {xs part : List β} (hx : xs.length = n)
    (hP : ∀ x ∈ xs, P x) (hpart : change (s.slice xs) = .ok part) (hlen : part.length = s.length)
    (hPpart : ∀ x ∈ part, P x) :
    ∃ ys, s.update change xs = .ok ys ∧ ys.length = n ∧ ∀ y ∈ ys, P y := by
  have hupdate : s.update change xs = .ok (xs.take (s.lower xs.length) ++ part ++
      xs.drop (s.lower xs.length + s.extent xs.length)) := bind_eq_ok.2 ⟨part, hpart, rfl⟩
  refine ⟨_, hupdate, (length_update (fun zs hzs => ?_) hupdate).trans hx, fun y hy => ?_⟩
  · cases hpart.symm.trans hzs
    exact hlen.trans (hs.length_slice hx).symm
  · rcases List.mem_append.1 hy with hy | hy
    · exact (List.mem_append.1 hy).elim (fun hy => hP y (List.mem_of_mem_take hy)) (hPpart y)
    · exact hP y (List.mem_of_mem_drop hy)

/-- Values for every position of a span are accumulated on any list of the axis, and leave what lies
outside of the span as it is. -/
theorem exists_accumulate_frame [Zero α] [Add α] (hs : s.On n) {values xs : List α}
    (hv : values.length = s.length) (hx : xs.length = n) :
    ∃ ys, s.accumulate values xs = .ok ys ∧ ys.length = n ∧
      ∀ j : Nat, (j : Int) ∉ s.positions → ys.getD j 0 = xs.getD j 0 := by
  obtain ⟨f, rfl⟩ : ∃ f : Fin n → α, xs = List.ofFn f :=
    ⟨_, (Dense.ofFn_toVector_of_length hx).symm⟩
  refine ⟨_, accumulate_eq_ofFn hs hv f, List.length_ofFn, fun j hj => ?_⟩
  rw [mem_positions] at hj
  by_cases hjn : j < n
  · rw [List.getD_eq_getElem _ _ (by simpa using hjn),
      List.getD_eq_getElem _ _ (by simpa using hjn), List.getElem_ofFn, List.getElem_ofFn,
      pick_of_notMem hj]
  · rw [List.getD_eq_default _ _ (by simpa using hjn),
      List.getD_eq_default _ _ (by simpa using hjn)]

end Span.On

namespace BlockMatrix

variable [Zero α] [Add α] {A : BlockMatrix α}

/-- Whether a row of `n` entries is zero in the columns that a matrix does not cover. -/
def Blank (A : BlockMatrix α) (n : Nat) (row : List α) : Prop :=
  row.length = n ∧ ∀ j : Nat, (∀ t ∈ A.tiles, (j : Int) ∉ t.columns.positions) → row.getD j 0 = 0

/-- A panel is added to the rows of a dense matrix, and leaves the columns blank that the matrix
does not cover. -/
theorem Fits.exists_addPanel {m n : Nat} {panel : Tile × List (List α)} (h : Fits m n panel)
    (ht : panel.1 ∈ A.tiles) {rows : List (List α)} (hm : rows.length = m)
    (hrows : ∀ row ∈ rows, A.Blank n row) :
    ∃ rows', addPanel n rows panel = .ok rows' ∧ rows'.length = m ∧
      ∀ row ∈ rows', A.Blank n row := by
  have hslice : (panel.1.rows.slice rows).length = panel.2.length :=
    (h.rows_on.length_slice hm).trans h.height_toSpan.symm
  have hadd : ∀ pair ∈ (panel.1.rows.slice rows).zip panel.2,
      ∃ row, addRow panel.1.columns.toSpan pair.1 pair.2 = .ok row ∧ A.Blank n row := by
    rintro ⟨row, values⟩ hpair
    obtain ⟨hrow, hvalues⟩ := List.of_mem_zip hpair
    obtain ⟨hlen, hzero⟩ := hrows row (List.mem_of_mem_drop (List.mem_of_mem_take hrow))
    obtain ⟨row', hrow', hlen', hframe⟩ :=
      h.columns_on.exists_accumulate_frame (h.width_toSpan values hvalues) hlen
    refine ⟨row', hrow', hlen', fun j hj => (hframe j ?_).trans (hzero j hj)⟩
    rw [← h.solid.2.positions_eq]
    exact hj _ ht
  obtain ⟨part, hpart, hlen, hblank⟩ := exists_mapM hadd
  rw [List.length_zip, hslice, Nat.min_self, h.height_toSpan] at hlen
  rw [addPanel, if_pos (.inl (h.solid.2.trans h.columns_on.extent_eq.symm))]
  refine h.rows_on.exists_update hm hrows ?_ hlen hblank
  rw [hslice, stretch_self]
  exact hpart

/-- A regular matrix has a dense form, in any arithmetic, whose entries are zero in the columns that
no tile covers. -/
theorem Regular.exists_dense (h : A.Regular) :
    ∃ D : Tensor α, A.dense = .ok D ∧ D.shape = [A.rows.toNat, A.columns.toNat] ∧
      ∀ i j : Nat, (∀ t ∈ A.tiles, (j : Int) ∉ t.columns.positions) → D.cell i j = 0 := by
  have hstart : zeroRows A.rows A.columns =
      .ok (List.replicate A.rows.toNat (List.replicate A.columns.toNat (0 : α))) := by
    rw [zeroRows, if_neg (by have := h.rows_nonneg; omega), zeros_eq_ok h.columns_nonneg]
    rfl
  have hzero : ∀ row ∈ List.replicate A.rows.toNat (List.replicate A.columns.toNat (0 : α)),
      A.Blank A.columns.toNat row := by
    intro row hrow
    rw [List.eq_of_mem_replicate hrow]
    exact ⟨List.length_replicate, fun j _ => List.getElem?_getD_replicate_default_eq 0 _ j⟩
  obtain ⟨rows, hrows, hlen, hblank⟩ := exists_foldlM
    (P := fun rows : List (List α) => rows.length = A.rows.toNat ∧
      ∀ row ∈ rows, A.Blank A.columns.toNat row)
    (fun panel hp rows hrows =>
      (h.fits (Int.self_le_toNat _) (Int.self_le_toNat _) hp).exists_addPanel
        (h.wellFormed.mem_panels hp).1 hrows.1 hrows.2) ⟨List.length_replicate, hzero⟩
  have hwidth : ∀ row ∈ rows, row.length = A.columns.toNat := fun row hrow => (hblank row hrow).1
  have hvolume : rows.flatten.length = volume [A.rows.toNat, A.columns.toNat] := by
    rw [length_flatten_rows hwidth, hlen]
    simp
  refine ⟨⟨_, rows.flatten, hvolume⟩, ?_, rfl, fun i j hj => ?_⟩
  · have hdenseRows : A.denseRows = .ok rows := by
      rw [denseRows, hstart]
      exact hrows
    rw [dense, hdenseRows]
    exact dif_pos hvolume
  · simp only [Tensor.cell, Tensor.matrix?]
    split
    · rename_i hij
      rw [Tensor.getD_flatten hwidth i hij.2]
      have hmem : rows.getD i [] ∈ rows := by
        rw [List.getD_eq_getElem _ _ (by omega)]
        exact List.getElem_mem _
      exact (hblank _ hmem).2 j hj
    · rfl

end BlockMatrix

/-! ## Assembled blocks -/

/-- A model that is laid out by the blocks of a residual: it has a tile for each block, in the
columns of the variable, whose scalars are the rows of the block one after the other. It is zero
outside of these columns, and its bias is the negated residual. -/
structure LinearModel.LaidOut [Zero α] [Add α] [Neg α] (model : LinearModel α) (s : Assignment α)
    (blocks : List (Int × List (List α))) (residual : List α) : Prop where
  tiles : List.Forall₂ (fun block tile => tile.rows = Span.toStride ⟨0, residual.length⟩ ∧
    ∃ span, s.span block.1 = .ok span ∧ tile.columns = Span.toStride span)
    blocks model.matrix.tiles
  scalars : model.matrix.scalars = blocks.flatMap fun block => block.2.flatten
  dense : ∃ D : Tensor α, model.matrix.dense = .ok D ∧
    D.shape = [residual.length, model.matrix.columns.toNat] ∧
    ∀ i j : Nat, (∀ block ∈ blocks, ∀ span, s.span block.1 = .ok span →
      (j : Int) ∉ span.positions) → D.cell i j = 0
  bias : model.bias = ⟨residual.map (-·), [⟨0, residual.length⟩]⟩

namespace BlockMatrix

/-- Cut by the widths of the blocks, the rows of blocks side by side are regrouped to the blocks one
after the other. -/
theorem collateScalars_rows {m : Nat} {blocks : List (Int × List (List α))} (width : Int → Nat)
    (hm : ∀ block ∈ blocks, block.2.length = m)
    (hw : ∀ block ∈ blocks, ∀ row ∈ block.2, row.length = width block.1) :
    collateScalars (blocks.map fun block => width block.1)
        ((List.range m).map fun i => blocks.flatMap fun block => block.2.getD i []) =
      blocks.flatMap fun block => block.2.flatten := by
  induction blocks with
  | nil => rfl
  | cons block blocks ih =>
    have hheight := hm block (List.mem_cons_self ..)
    have hrow : ∀ i ∈ List.range m, (block.2.getD i []).length = width block.1 := by
      intro i hi
      rw [List.getD_eq_getElem _ _ (by simpa [hheight] using hi)]
      exact hw block (List.mem_cons_self ..) _ (List.getElem_mem _)
    have hfirst : (List.range m).map (fun i => ((block :: blocks).flatMap fun block =>
        block.2.getD i []).take (width block.1)) = block.2 := by
      refine List.ext_getElem (by simp [hheight]) fun i h₁ h₂ => ?_
      have hi : i ∈ List.range m := by simpa using h₁
      rw [List.getElem_map, List.getElem_range, List.flatMap_cons, ← hrow i hi, List.take_left,
        List.getD_eq_getElem _ _ h₂]
    have hothers : (List.range m).map (fun i => ((block :: blocks).flatMap fun block =>
        block.2.getD i []).drop (width block.1)) =
          (List.range m).map fun i => blocks.flatMap fun block => block.2.getD i [] := by
      refine List.map_congr_left fun i hi => ?_
      rw [List.flatMap_cons, ← hrow i hi, List.drop_left]
    rw [List.map_cons, collateScalars, List.map_map, List.map_map]
    simp only [Function.comp_def]
    rw [hfirst, hothers, ih (fun b hb => hm b (List.mem_cons_of_mem _ hb))
      fun b hb => hw b (List.mem_cons_of_mem _ hb), List.flatMap_cons]

/-- Rows of the same blocks, of which there is one, are collated to a matrix of these blocks. -/
theorem collate_of_blocks {rows : List (BlockVector α)} {spans : List Span} (hrows : rows ≠ [])
    (hspans : spans ≠ []) (h : ∀ row ∈ rows, row.blocks = spans) :
    collate rows = .ok ⟨collateScalars (spans.map Span.length) (rows.map (·.scalars)),
      spans.map fun span : Span => ⟨Span.ofLength 0 rows.length, span⟩⟩ := by
  obtain ⟨first, rest, rfl⟩ := List.exists_cons_of_ne_nil hrows
  have hfirst := h first (List.mem_cons_self ..)
  subst hfirst
  refine collate_eq_ok.2 ⟨fun row hrow => ?_, hspans, rfl⟩
  rw [h row hrow]
  exact sameLayout_self _

end BlockMatrix

theorem LinearModel.LaidOut.tiles_eq [Zero α] [Add α] [Neg α] {model : LinearModel α}
    {s : Assignment α} {blocks : List (Int × List (List α))} {residual : List α}
    (h : model.LaidOut s blocks residual) :
    model.matrix.tiles = blocks.map fun block =>
      ⟨(⟨0, residual.length⟩ : Span), s.spanAt block.1⟩ := by
  rw [← List.forall₂_eq_eq_eq, List.forall₂_map_right_iff]
  refine h.tiles.flip.imp fun tile block htile => ?_
  obtain ⟨hrows, span, hspan, hcolumns⟩ := htile
  rw [Assignment.spanAt, hspan, ← hrows]
  exact congrArg (Tile.mk _) hcolumns

/-- The model of the blocks of a residual. -/
def LinearModel.ofBlocks [Neg α] (s : Assignment α) (blocks : List (Int × List (List α)))
    (residual : List α) : LinearModel α :=
  ⟨⟨blocks.flatMap fun block => block.2.flatten, blocks.map fun block =>
    ⟨Span.ofLength 0 residual.length, s.spanAt block.1⟩⟩, .ofList (residual.map (-·))⟩

namespace Assignment.Blocks

variable [Zero α] [Add α] {s : Assignment α} {keys : List Int} {m : Nat}
  {blocks : List (Int × List (List α))}

theorem span_eq (h : s.Blocks keys m blocks) {block : Int × List (List α)}
    (hblock : block ∈ blocks) : s.span block.1 = .ok (s.spanAt block.1) := by
  obtain ⟨x, hx, -⟩ := h.width block hblock
  exact span_eq_spanAt hx

/-- The rows of the blocks are collated to the blocks. -/
theorem collate_eq (h : s.Blocks keys m blocks) (hblocks : blocks ≠ []) (hm : m ≠ 0) :
    BlockMatrix.collate ((List.range m).map (s.rowOf blocks)) =
      .ok ⟨blocks.flatMap fun block => block.2.flatten,
        blocks.map fun block => ⟨Span.ofLength 0 m, s.spanAt block.1⟩⟩ := by
  have hsame : ∀ row ∈ (List.range m).map (s.rowOf blocks),
      row.blocks = blocks.map fun block => s.spanAt block.1 := List.forall_mem_map.2 fun _ _ => rfl
  have hwidth : ∀ block ∈ blocks, ∀ row ∈ block.2, row.length = (s.spanAt block.1).length := by
    intro block hblock row hrow
    obtain ⟨x, hx, hlen⟩ := h.width block hblock
    rw [hlen row hrow, length_spanAt hx]
  rw [BlockMatrix.collate_of_blocks (by simpa using hm) (by simpa using hblocks) hsame,
    ← BlockMatrix.collateScalars_rows (fun key => (s.spanAt key).length) h.height hwidth]
  simp only [List.map_map, List.length_map, List.length_range]
  rfl

variable [Neg α] {residual : List α}

/-- The blocks of a residual that has entries are assembled to their model. -/
theorem assemble_eq (h : s.Blocks keys residual.length blocks) (hkeys : keys ≠ [])
    (hresidual : residual ≠ []) :
    assemble s blocks residual = .ok (.ofBlocks s blocks residual) := by
  have hblocks := h.ne_nil hkeys
  have hrows : (List.range residual.length).mapM (assembleRow s blocks) =
      .ok ((List.range residual.length).map (s.rowOf blocks)) :=
    mapM_eq_ok fun i hi => assembleRow_eq (h.length_getD (List.mem_range.1 hi))
  have hcollate := h.collate_eq hblocks (List.length_pos_iff.2 hresidual).ne'
  exact bind_eq_ok.2 ⟨_, hrows, bind_eq_ok.2 ⟨_, hcollate, rfl⟩⟩

/-- They lay out the model. -/
theorem laidOut (h : s.Blocks keys residual.length blocks) (hkeys : keys ≠ [])
    (hresidual : residual ≠ []) :
    (LinearModel.ofBlocks s blocks residual).LaidOut s blocks residual := by
  have hblocks := h.ne_nil hkeys
  have hheight : (LinearModel.ofBlocks s blocks residual).matrix.rows = residual.length :=
    BlockMatrix.rows_eq_of_stop (by simpa [LinearModel.ofBlocks] using hblocks)
      (List.forall_mem_map.2 fun _ _ => zero_add _)
  obtain ⟨D, hD, hshape, hzero⟩ :=
    (LinearModel.of_assemble (h.assemble_eq hkeys hresidual)).regular.matrix.exists_dense
  refine ⟨?_, rfl, ⟨D, hD, ?_, fun i j hj => hzero i j ?_⟩, ?_⟩
  · rw [LinearModel.ofBlocks, List.forall₂_map_right_iff, List.forall₂_same]
    exact fun block hblock => ⟨by simp [Span.ofLength], _, h.span_eq hblock, rfl⟩
  · rw [hshape, hheight, Int.toNat_natCast]
  · refine List.forall_mem_map.2 fun block hblock => ?_
    rw [Span.positions_toStride]
    exact hj block hblock _ (h.span_eq hblock)
  · simp [LinearModel.ofBlocks, BlockVector.ofList, Span.ofLength]

end Assignment.Blocks

/-! ## Linearized residuals -/

section
variable [Zero α] [Add α] [Elementary α] {s : Assignment α}

/-- A variable that is contained is replaced, in an assignment of the same shape, by what it becomes
along a tangent vector of length zero. -/
theorem exists_set_move (hs : s.keys.Nodup) (haccepting : s.Accepting) {key : Int} {x : Variable α}
    (hx : s.find key = .ok x) {t : Assignment α} (ht : t.shape = s.shape) :
    ∃ moved u, x.move (.ofList (List.replicate x.kind.dimension 0)) = .ok moved ∧
      t.set key moved none = .ok u ∧ u.shape = s.shape := by
  have hkind : x.kind.Accepting α := haccepting _ (Assignment.mem_of_find hx)
  obtain ⟨moved, hmoved⟩ := Variable.exists_move hkind (d := List.replicate x.kind.dimension 0)
    List.length_replicate
  have htkeys : t.keys.Nodup := by rwa [Assignment.keys_eq_of_shape ht]
  have hmem : (key, moved.kind) ∈ t.shape := by
    rw [ht, Variable.kind_move hmoved]
    exact List.mem_map.2 ⟨_, Assignment.mem_of_find hx, rfl⟩
  obtain ⟨y, hy, hkind⟩ := Assignment.exists_find htkeys hmem
  have hset : t.set key moved none = .ok ⟨Assignment.replace key moved t.entries⟩ :=
    Assignment.set_eq_ok.2 ⟨⟨y, hy, by simp, hkind.symm⟩, rfl⟩
  exact ⟨moved, _, hmoved, hset, (Assignment.shape_set htkeys hset).trans ht⟩

/-- Variables that are contained are replaced one after the other. -/
theorem exists_perturb {keys : List Int} (hs : s.keys.Nodup) (haccepting : s.Accepting)
    (hkeys : ∀ key ∈ keys, key ∈ s.keys) {t : Assignment α} (ht : t.shape = s.shape) :
    ∃ u, perturb s keys t = .ok u ∧ u.shape = s.shape := by
  induction keys generalizing t with
  | nil => exact ⟨t, rfl, ht⟩
  | cons key keys ih =>
    obtain ⟨x, hx⟩ := Assignment.mem_keys.1 (hkeys key (List.mem_cons_self ..))
    obtain ⟨moved, t', hmoved, hset, ht'⟩ := exists_set_move hs haccepting hx ht
    obtain ⟨u, hu, hshape⟩ := ih (fun key hkey => hkeys key (List.mem_cons_of_mem _ hkey)) ht'
    exact ⟨u, bind_eq_ok.2 ⟨x, hx, bind_eq_ok.2 ⟨moved, hmoved, bind_eq_ok.2 ⟨_, hset, hu⟩⟩⟩,
      hshape⟩

end

/-- The linear model of a residual keeps the layout of its Jacobian. Blocks for the keys of a
factor, whatever they hold, are assembled to a model that they lay out, and never refused. So a
residual that is traced and has entries is linearized to a model that its Jacobian blocks lay out;
otherwise a motion refuses, which none of an accepting kind does, or the residual, or that it has no
entries. -/
theorem ResidualFactor.linearize_layout [Zero α] [One α] [Add α] [Neg α] [Elementary α]
    {s : Assignment α} (hs : s.Reachable) {f : ResidualFactor α} (hne : f.keys ≠ [])
    (hkeys : ∀ key ∈ f.keys, key ∈ s.keys) :
    (∀ (residual : List α) (blocks : List (Int × List (List α))), residual ≠ [] →
      s.Blocks f.keys residual.length blocks →
      ∃ model, assemble s blocks residual = .ok model ∧ model.LaidOut s blocks residual) ∧
    (s.Accepting → ∃ u, perturb s f.keys s = .ok u) ∧
    (∀ e, perturb s f.keys s = .error e → f.linearize s = .error e) ∧
    ∀ u, perturb s f.keys s = .ok u →
      (∀ e, f.residual.trace u = .error e → f.linearize s = .error e) ∧
      ∀ t, f.residual.trace u = .ok t →
        (t.value.data = [] → f.linearize s = .error .emptyResidual) ∧
        (t.value.data ≠ [] → ∃ blocks model,
          jacobianBlocks s ((List.range t.value.data.length).map fun i =>
            t.adjoint (Dense.unit t.value.data.length i)) f.keys = .ok blocks ∧
          s.Blocks f.keys t.value.data.length blocks ∧
          f.linearize s = .ok model ∧ model.LaidOut s blocks t.value.data) := by
  have hassemble : ∀ (residual : List α) (blocks : List (Int × List (List α))), residual ≠ [] →
      s.Blocks f.keys residual.length blocks →
      ∃ model, assemble s blocks residual = .ok model ∧ model.LaidOut s blocks residual :=
    fun _ _ hresidual hblocks =>
      ⟨_, hblocks.assemble_eq hne hresidual, hblocks.laidOut hne hresidual⟩
  have hfind : ∀ key ∈ f.keys, ∃ x, s.find key = .ok x :=
    fun key hkey => Assignment.mem_keys.1 (hkeys key hkey)
  obtain ⟨xs, hxs⟩ := Assignment.exists_mapM_find hfind
  refine ⟨hassemble, fun haccepting => ?_, fun e he => ?_, fun u hu => ⟨fun e he => ?_,
    fun t ht => ⟨fun hempty => ?_, fun hdata => ?_⟩⟩⟩
  · obtain ⟨u, hu, -⟩ := exists_perturb hs.nodup_keys haccepting hkeys rfl
    exact ⟨u, hu⟩
  · simp only [linearize, hxs, he, bind, Except.bind]
  · simp only [linearize, hxs, hu, he, bind, Except.bind]
  · have hlen : t.value.data.length = 0 := by rw [hempty, List.length_nil]
    simp only [linearize, hxs, hu, ht, bind, Except.bind, if_pos hlen]
  · obtain ⟨blocks, hjacobian⟩ := exists_jacobianBlocks
      ((List.range t.value.data.length).map fun i => t.adjoint (Dense.unit t.value.data.length i))
      hfind
    have hblocks := blocks_of_jacobianBlocks hjacobian
    rw [List.length_map, List.length_range] at hblocks
    obtain ⟨model, hmodel, hlayout⟩ := hassemble _ _ hdata hblocks
    refine ⟨blocks, model, hjacobian, hblocks, ?_, hlayout⟩
    have hlen : t.value.data.length ≠ 0 := (List.length_pos_iff.2 hdata).ne'
    simp only [linearize, hxs, hu, ht, hjacobian, hmodel, bind, Except.bind, if_neg hlen]

/-- A point under two occurrences of its key, and a variable without coordinates between them. -/
theorem ResidualFactor.linearize_layout_repeated :
    let s : Assignment ℝ := ⟨[(5, ⟨.line, [2], rfl⟩), (4, ⟨.vector "Vector0" 0, [], rfl⟩),
      (7, ⟨.plane, [3, 4], rfl⟩)]⟩
    let f : ResidualFactor ℝ := ⟨"Position", [7, 4, 7], ⟨fun s => Residual.read s 7⟩⟩
    let blocks : List (Int × List (List ℝ)) :=
      [(7, [[1, 2], [3, 4]]), (4, [[], []]), (7, [[5, 6], [7, 8]])]
    let tiles : List Tile := [.ofBounds 0 2 1 3, .ofBounds 0 2 1 1, .ofBounds 0 2 1 3]
    s.Reachable ∧ f.keys ≠ [] ∧ (∀ key ∈ f.keys, key ∈ s.keys) ∧ s.Blocks f.keys 2 blocks ∧
      (∃ model, assemble s blocks [9, 10] = .ok model ∧ model.matrix.tiles = tiles ∧
        model.matrix.scalars = [1, 2, 3, 4, 5, 6, 7, 8]) ∧
      ∃ model, f.linearize s = .ok model ∧ model.matrix.tiles = tiles ∧
        model.bias = ⟨[-3, -4], [⟨0, 2⟩]⟩ := by
  intro s f blocks tiles
  have hs : s.Reachable := .of_nodup (by decide)
  have hne : f.keys ≠ [] := by decide
  have hkeys : ∀ key ∈ f.keys, key ∈ s.keys := by decide
  have hblocks : s.Blocks f.keys 2 blocks := by
    refine ⟨rfl, by simp [blocks], ?_⟩
    simp only [blocks, List.forall_mem_cons]
    exact ⟨⟨_, rfl, by simp [Kind.plane, Kind.dimension]⟩, ⟨_, rfl, by simp [Kind.dimension]⟩,
      ⟨_, rfl, by simp [Kind.plane, Kind.dimension]⟩, by simp⟩
  have htiles : ∀ {blocks : List (Int × List (List ℝ))} {residual : List ℝ} {model : LinearModel ℝ},
      s.Blocks f.keys 2 blocks → residual.length = 2 → model.LaidOut s blocks residual →
      model.matrix.tiles = tiles := by
    intro blocks residual model hblocks hlen hlayout
    have hmap : blocks.map (fun block => (⟨(⟨0, (2 : Nat)⟩ : Span), s.spanAt block.1⟩ : Tile)) =
        f.keys.map fun key => ⟨(⟨0, (2 : Nat)⟩ : Span), s.spanAt key⟩ := by
      rw [← hblocks.keys_eq, List.map_map]
      rfl
    rw [hlayout.tiles_eq, hlen, hmap]
    rfl
  obtain ⟨hassemble, -, -, hperturbed⟩ := linearize_layout hs hne hkeys
  obtain ⟨model, hmodel, hlayout⟩ := hassemble [9, 10] blocks (by simp) hblocks
  refine ⟨hs, hne, hkeys, hblocks, ⟨model, hmodel, htiles hblocks rfl hlayout, hlayout.scalars⟩, ?_⟩
  -- the point stays where it is
  have hvector : s.IsVector := by
    have hkinds : ∀ k ∈ s.entries.map (·.2.kind), k.IsVector := by decide
    exact fun e he => hkinds _ (List.mem_map_of_mem he)
  have hu' := perturb_self hs.nodup_keys hvector fun key hkey =>
    Assignment.mem_keys.1 (hkeys key hkey)
  obtain ⟨blocks', model', -, hblocks', hmodel', hlayout'⟩ :=
    ((hperturbed s hu').2 (.coordinates 7 ⟨.plane, [3, 4], rfl⟩) rfl).2 (by simp)
  refine ⟨model', hmodel', htiles hblocks' rfl hlayout', ?_⟩
  rw [hlayout'.bias]
  rfl

end LeastSquares
