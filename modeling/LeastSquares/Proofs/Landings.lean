import LeastSquares.Proofs.Materialization

/-!
# Where scalars land

Blocks may have negative bounds. Materialization reads the bounds of a block as those of a slice, so
a block of negative positions counts from the end of the axis, and whether its scalars fit is
noticed when they are accumulated: a block that selects fewer entries than it has scalars is
refused. A block of one scalar is not, since a single value is repeated over the selection whatever
its length. On position -1 the selection is empty, the bound behind it being position 0, and before
the first entry it is empty after clipping; there the scalar is lost (`Span.Lost`).

Every other scalar of a vector that is materialized lands in one entry (`BlockVector.landings`), an
entry is the sum of the scalars that land there, and the entries and the lost scalars together add
up to what is stored (`BlockVector.dense_conserves`).
-/

namespace LeastSquares

variable {K : Type}

/-! ## Deliveries -/

/-- The sum of the amounts that are delivered to a place, out of amounts that go to one place or to
none. -/
def received [Zero K] [Add K] (deliveries : List (Option Nat × K)) (place : Option Nat) : K :=
  ((deliveries.filter (·.1 = place)).map Prod.snd).sum

section
variable [AddCommMonoid K]

theorem received_cons (d : Option Nat × K) (ds : List (Option Nat × K)) (place : Option Nat) :
    received (d :: ds) place = (if d.1 = place then d.2 else 0) + received ds place := by
  unfold received
  by_cases h : d.1 = place
  · rw [List.filter_cons_of_pos (by simpa using h), if_pos h, List.map_cons, List.sum_cons]
  · rw [List.filter_cons_of_neg (by simpa using h), if_neg h, zero_add]

theorem received_append (ds es : List (Option Nat × K)) (place : Option Nat) :
    received (ds ++ es) place = received ds place + received es place := by
  simp only [received, List.filter_append, List.map_append, List.sum_append]

/-- Nothing is received where nothing is delivered. -/
theorem received_eq_zero {ds : List (Option Nat × K)} {place : Option Nat}
    (h : ∀ d ∈ ds, d.1 ≠ place) : received ds place = 0 := by
  have hnone : ds.filter (·.1 = place) = [] := by simpa using h
  rw [received, hnone, List.map_nil, List.sum_nil]

/-- What the places receive, and what goes to none of them, is what was sent. -/
theorem sum_received {ds : List (Option Nat × K)} {n : Nat}
    (h : ∀ d ∈ ds, ∀ j, d.1 = some j → j < n) :
    ∑ j : Fin n, received ds (some j) + received ds none = (ds.map Prod.snd).sum := by
  induction ds with
  | nil => simp [received]
  | cons d ds ih =>
    have hrest := ih fun e he => h e (List.mem_cons_of_mem _ he)
    simp only [received_cons, Finset.sum_add_distrib, List.map_cons, List.sum_cons, ← hrest]
    obtain ⟨place, amount⟩ := d
    cases place with
    | none => simp [add_left_comm]
    | some j =>
      have hj : j < n := h _ (List.mem_cons_self ..) j rfl
      have hone : ∑ i : Fin n, (if some j = some (i : Nat) then amount else 0) = amount := by
        rw [Finset.sum_eq_single ⟨j, hj⟩ (fun i _ hi => if_neg fun hji => hi ?_) (by simp)]
        · exact if_pos rfl
        · exact Fin.ext (Option.some.inj hji).symm
      rw [hone, if_neg (Option.some_ne_none j), zero_add, add_assoc]

end

namespace Span

/-- The positions of a moved span. -/
theorem positions_shift (s : Span) (k : Int) :
    (s.shift k).positions = s.positions.map (· + k) := by
  simp only [positions, length_shift, List.map_map]
  refine List.map_congr_left fun i _ => ?_
  simp only [shift, Function.comp_apply]
  omega

theorem length_eq_succ {s : Span} (h : 0 < s.length) :
    s.length = (⟨s.start + 1, s.stop⟩ : Span).length + 1 := by
  simp only [length] at h ⊢
  omega

/-- The positions of a span that has any: its start, then those behind it. -/
theorem positions_eq_cons {s : Span} (h : 0 < s.length) :
    s.positions = s.start :: (⟨s.start + 1, s.stop⟩ : Span).positions := by
  rw [positions, length_eq_succ h, List.range_succ_eq_map, List.map_cons, List.map_map, positions]
  congr 1
  · simp
  · refine List.map_congr_left fun i _ => ?_
    simp only [Function.comp_apply]
    omega

/-- The first value is placed at the start of a span, the others behind it. -/
theorem pick_cons [AddMonoid K] {s : Span} (h : 0 < s.length) (x : K) (values : List K) (i : Int) :
    s.pick 0 (x :: values) i =
      (if s.start = i then x else 0) + (⟨s.start + 1, s.stop⟩ : Span).pick 0 values i := by
  simp only [length] at h
  by_cases hi : s.start = i
  · have hin : s.start ≤ i ∧ i < s.stop := by omega
    have hfirst : (i - s.start).toNat = 0 := by omega
    rw [pick_of_mem hin, if_pos hi, pick_of_notMem (by simp only; omega), hfirst,
      List.getD_cons_zero, add_zero]
  · rw [if_neg hi, zero_add]
    by_cases hin : s.start ≤ i ∧ i < s.stop
    · have hlater : (i - s.start).toNat = (i - (s.start + 1)).toNat + 1 := by omega
      rw [pick_of_mem hin, pick_of_mem (by simp only; omega), hlater, List.getD_cons_succ]
    · rw [pick_of_notMem hin, pick_of_notMem (by simp only; omega)]

/-- Values that are delivered to the positions of a span are received where they are picked. -/
theorem received_positions [AddCommMonoid K] {s : Span} {values : List K} (h0 : 0 ≤ s.start)
    (hv : values.length = s.length) (j : Nat) :
    received ((s.positions.map fun i => some i.toNat).zip values) (some j) =
      s.pick 0 values j := by
  induction values generalizing s with
  | nil =>
    rw [List.zip_nil_right, pick_nil]
    rfl
  | cons x values ih =>
    rw [List.length_cons] at hv
    have hrest : values.length = (⟨s.start + 1, s.stop⟩ : Span).length :=
      Nat.succ.inj (hv.trans (length_eq_succ (by omega)))
    have hplace : some s.start.toNat = some j ↔ s.start = j := by
      rw [Option.some.injEq]
      omega
    rw [positions_eq_cons (by omega), List.map_cons, List.zip_cons_cons, received_cons,
      ih (by simp only; omega) hrest, pick_cons (by omega)]
    simp only [hplace]

/-! ## Blocks as slices -/

/-- A block of one position whose scalar an axis of `n` entries has no place for. -/
def Lost (s : Span) (n : Nat) : Prop := s.length = 1 ∧ (s.start = -1 ∨ s.start < -n)

instance (s : Span) (n : Nat) : Decidable (s.Lost n) := inferInstanceAs (Decidable (_ ∧ _))

/-- A block of negative positions, counted from the end of an axis of `n` entries. -/
def wrap (s : Span) (n : Nat) : Span := if s.start < 0 then s.shift n else s

/-- The entry that a position of a block stands for, if the scalar there is not lost. -/
def landing (s : Span) (n : Nat) (i : Int) : Option Nat :=
  if s.Lost n then none else some (if s.start < 0 then i + n else i).toNat

theorem landings_eq {s : Span} {n : Nat} (h : ¬s.Lost n) :
    s.positions.map (s.landing n) = (s.wrap n).positions.map fun i => some i.toNat := by
  have hlanding : ∀ i, s.landing n i = some (if s.start < 0 then i + n else i).toNat :=
    fun i => if_neg h
  by_cases hneg : s.start < 0
  · rw [wrap, if_pos hneg, positions_shift, List.map_map]
    exact List.map_congr_left fun i _ => by rw [hlanding, if_pos hneg, Function.comp_apply]
  · rw [wrap, if_neg hneg]
    exact List.map_congr_left fun i _ => by rw [hlanding, if_neg hneg]

variable [Add K] {s : Span} {values xs ys : List K}

/-- Values that are accumulated are as many as the entries that the span selects, or one. -/
theorem fits_of_accumulate (h : s.accumulate values xs = .ok ys) :
    values.length = s.extent xs.length ∨ values.length = 1 := by
  obtain ⟨part, hpart, -⟩ := bind_eq_ok.1 h
  obtain ⟨vs, hvs, -⟩ := bind_eq_ok.1 hpart
  rw [length_slice] at hvs
  unfold stretch at hvs
  split at hvs
  · exact .inl ‹_›
  · split at hvs
    · exact .inr rfl
    · cases hvs

/-- Spans that select the same entries accumulate alike. -/
theorem accumulate_congr {t : Span} (hl : s.lower xs.length = t.lower xs.length)
    (he : s.extent xs.length = t.extent xs.length) :
    s.accumulate values xs = t.accumulate values xs := by
  simp only [accumulate, update, slice, hl, he]

/-- Values that a span without selected entries accumulates leave no trace. -/
theorem eq_of_accumulate (he : s.extent xs.length = 0) (h : s.accumulate values xs = .ok ys) :
    ys = xs := by
  obtain ⟨part, hpart, hys⟩ := bind_eq_ok.1 h
  obtain ⟨vs, -, hvs⟩ := bind_eq_ok.1 hpart
  have hslice : s.slice xs = [] := List.eq_nil_of_length_eq_zero (by rw [length_slice, he])
  cases hvs
  cases hys
  simp [hslice, he]

omit [Add K] in
/-- A negative bound on the axis is the bound that it denotes. -/
theorem clip_add {n : Nat} {b : Int} (hb : b < 0) (h0 : 0 ≤ b + n) : clip n (b + n) = clip n b := by
  simp only [clip]
  omega

omit [Add K] in
/-- A block that ends on the axis and is not refused there: it selects nothing, having no position
or one that is lost, or it selects its positions counted from the end. -/
theorem selects {n : Nat} (hstop : s.stop ≤ n) (hfit : s.length = s.extent n ∨ s.length = 1) :
    s.extent n = 0 ∧ (s.length = 0 ∨ s.Lost n) ∨
      ¬s.Lost n ∧ (s.wrap n).On n ∧ s.lower n = (s.wrap n).lower n ∧
        s.extent n = (s.wrap n).extent n ∧ s.length = (s.wrap n).length := by
  by_cases hempty : s.extent n = 0
  · refine .inl ⟨hempty, ?_⟩
    simp only [Lost, length, extent, clip] at *
    omega
  have hlost : ¬s.Lost n := by
    intro hlost
    simp only [Lost, length, extent, clip] at *
    omega
  by_cases hneg : s.start < 0
  · -- such a block selects something only if it lies on the negative positions of the axis
    obtain ⟨hstart, hstop, hend⟩ : 0 ≤ s.start + n ∧ s.stop < 0 ∧ 0 ≤ s.stop + n := by
      simp only [length, extent, clip] at hempty hfit
      omega
    have hlower : clip n (s.start + n) = clip n s.start := clip_add hneg hstart
    have hupper : clip n (s.stop + n) = clip n s.stop := clip_add hstop hend
    rw [wrap, if_pos hneg]
    refine .inr ⟨hlost, ⟨⟨hstart, hend⟩, ?_⟩, hlower.symm, ?_, (length_shift _ _).symm⟩
    · simp only [shift]
      omega
    · rw [extent, extent, shift, hlower, hupper]
  · have hsome : 0 ≤ s.stop := by
      simp only [length, extent, clip] at hempty hfit
      omega
    rw [wrap, if_neg hneg]
    exact .inr ⟨hlost, ⟨⟨not_lt.1 hneg, hsome⟩, hstop⟩, rfl, rfl, rfl⟩

end Span

/-! ## Materialization -/

namespace BlockVector

/-- The scalars of a piece with the entries they land in. -/
def pieceLandings (n : Nat) (piece : Span × List K) : List (Option Nat × K) :=
  (piece.1.positions.map (piece.1.landing n)).zip piece.2

/-- All scalars of a vector, as they are stored, with the entries they land in. -/
def landings (v : BlockVector K) (n : Nat) : List (Option Nat × K) :=
  v.pieces.flatMap (pieceLandings n)

section
variable {n : Nat} {piece : Span × List K} {v : BlockVector K}

theorem map_snd_pieceLandings (h : piece.2.length = piece.1.length) :
    (pieceLandings n piece).map Prod.snd = piece.2 :=
  List.map_snd_zip (by simp [h])

/-- Every stored scalar is listed once, in its order. -/
theorem WellFormed.map_snd_landings (hv : v.WellFormed) (n : Nat) :
    (v.landings n).map Prod.snd = v.scalars := by
  have hpieces : v.pieces.map Prod.snd = runs (v.blocks.map Span.length) v.scalars :=
    List.map_snd_zip (by simp)
  rw [landings, List.map_flatMap, ← flatten_runs hv, ← hpieces, ← List.flatMap_def]
  exact List.flatMap_congr fun piece hp => map_snd_pieceLandings (hv.mem_pieces hp).2

/-- Scalars land somewhere in a block that is not lost. -/
theorem ne_none_of_mem_pieceLandings (h : ¬piece.1.Lost n) {d : Option Nat × K}
    (hd : d ∈ pieceLandings n piece) : d.1 ≠ none := by
  obtain ⟨i, -, hi⟩ := List.mem_map.1 (List.of_mem_zip hd).1
  rw [← hi, Span.landing, if_neg h]
  exact Option.some_ne_none _

/-- A scalar of a lost block lands nowhere. -/
theorem eq_none_of_mem_pieceLandings (h : piece.1.Lost n) {d : Option Nat × K}
    (hd : d ∈ pieceLandings n piece) : d.1 = none := by
  obtain ⟨i, -, hi⟩ := List.mem_map.1 (List.of_mem_zip hd).1
  rw [← hi, Span.landing, if_pos h]

variable [AddCommMonoid K]

/-- Accumulating a piece that is not refused adds to every entry what lands there, and nothing lands
behind the end. -/
theorem accumulate_eq_received (hstop : piece.1.stop ≤ n)
    (hlen : piece.2.length = piece.1.length) {f : Fin n → K} {ys : List K}
    (h : piece.1.accumulate piece.2 (List.ofFn f) = .ok ys) :
    (∀ d ∈ pieceLandings n piece, ∀ j, d.1 = some j → j < n) ∧
      ys = List.ofFn (f + fun j : Fin n => received (pieceLandings n piece) (some j)) := by
  obtain ⟨s, values⟩ := piece
  have hfit := Span.fits_of_accumulate h
  rw [List.length_ofFn, hlen] at hfit
  rcases Span.selects hstop hfit with ⟨hextent, hnone⟩ | ⟨hlost, hon, hlower, hextent, hlength⟩
  · -- nothing is selected, and nothing lands
    have hplaces : ∀ d ∈ pieceLandings n (s, values), d.1 = none := by
      intro d hd
      rcases hnone with hnone | hlost
      · have hmem := (List.of_mem_zip hd).1
        rw [List.eq_nil_of_length_eq_zero ((s.length_positions).trans hnone)] at hmem
        cases hmem
      · exact eq_none_of_mem_pieceLandings hlost hd
    refine ⟨fun d hd j hj => absurd (hplaces d hd) (by simp [hj]), ?_⟩
    rw [Span.eq_of_accumulate (by rwa [List.length_ofFn]) h]
    refine congrArg List.ofFn (funext fun j => ?_)
    rw [Pi.add_apply, received_eq_zero fun d hd => by simp [hplaces d hd], add_zero]
  · -- the entries are those of the positions, counted from the end
    have hwrap : pieceLandings n (s, values) =
        ((s.wrap n).positions.map fun i => some i.toNat).zip values :=
      congrArg (List.zip · values) (Span.landings_eq hlost)
    rw [Span.accumulate_congr (by simpa using hlower) (by simpa using hextent),
      Span.accumulate_ofFn hon (hlen.trans hlength)] at h
    obtain rfl := Except.ok.inj h
    refine ⟨fun d hd j hj => ?_, congrArg List.ofFn (funext fun j => ?_)⟩
    · rw [hwrap] at hd
      obtain ⟨i, hi, hplace⟩ := List.mem_map.1 (List.of_mem_zip hd).1
      have hstop : (s.wrap n).stop ≤ n := hon.stop_le
      have hstart : 0 ≤ (s.wrap n).start := hon.nonneg.1
      rw [Span.mem_positions] at hi
      have hij : i.toNat = j := Option.some.inj (hplace.trans hj)
      omega
    · rw [Pi.add_apply, hwrap, Span.received_positions hon.nonneg.1 (hlen.trans hlength)]

theorem received_flatMap {π : Type} (f : π → List (Option Nat × K)) (ps : List π)
    (place : Option Nat) :
    received (ps.flatMap f) place = (ps.map fun p => received (f p) place).sum := by
  induction ps with
  | nil => rfl
  | cons p ps ih => rw [List.flatMap_cons, received_append, ih, List.map_cons, List.sum_cons]

/-- What is materialized lists what every entry receives. -/
theorem WellFormed.dense_eq_received (hv : v.WellFormed) {n : Int} {xs : List K}
    (h : v.dense n = .ok xs) :
    (∀ d ∈ v.landings n.toNat, ∀ j, d.1 = some j → j < n.toNat) ∧
      xs = List.ofFn fun j : Fin n.toNat => received (v.landings n.toNat) (some j) := by
  obtain ⟨hdim, hn, h⟩ := dense_eq_ok.1 h
  rw [replicate_eq_ofFn] at h
  have hstep : ∀ p ∈ v.pieces, ∀ (f : Fin n.toNat → K) ys,
      p.1.accumulate p.2 (List.ofFn f) = .ok ys →
      (∀ d ∈ pieceLandings n.toNat p, ∀ j, d.1 = some j → j < n.toNat) ∧
        ys = List.ofFn (f + fun j : Fin n.toNat =>
          received (pieceLandings n.toNat p) (some j)) := by
    intro p hp f ys hys
    obtain ⟨hb, hlen⟩ := hv.mem_pieces hp
    have hstop := stop_le_dimension hb
    exact accumulate_eq_received (by omega) hlen hys
  have hfold : v.pieces.foldlM (fun acc p => p.1.accumulate p.2 acc)
      (List.ofFn (0 : Fin n.toNat → K)) = .ok xs := h
  obtain ⟨hgood, hxs⟩ := of_foldlM_add hstep hfold
  refine ⟨fun d hd => ?_, ?_⟩
  · obtain ⟨p, hp, hd⟩ := List.mem_flatMap.1 hd
    exact hgood p hp d hd
  · rw [hxs, zero_add]
    refine congrArg List.ofFn (funext fun j => ?_)
    rw [sum_map_apply, landings, received_flatMap]

end

/-- Where a vector is materialized, every stored scalar is counted once: it lands in one entry, and
an entry is the sum of what lands there, or it is the scalar of a lost block. So the entries and the
lost scalars add up to what is stored, and a vector without lost blocks keeps its sum. -/
theorem dense_conserves [AddCommMonoid K] {v : BlockVector K} (hv : v.WellFormed) {n : Int}
    {xs : List K} (h : v.dense n = .ok xs) :
    xs.length = n.toNat ∧ (v.landings n.toNat).map Prod.snd = v.scalars ∧
      (∀ d ∈ v.landings n.toNat, ∀ j, d.1 = some j → j < xs.length) ∧
      (∀ j < xs.length, xs.getD j 0 = received (v.landings n.toNat) (some j)) ∧
      xs.sum + received (v.landings n.toNat) none = v.scalars.sum ∧
      ((∀ s ∈ v.blocks, ¬s.Lost n.toNat) →
        (∀ d ∈ v.landings n.toNat, ∃ j < xs.length, d.1 = some j) ∧ xs.sum = v.scalars.sum) := by
  obtain ⟨hplaces, rfl⟩ := hv.dense_eq_received h
  have hscalars := hv.map_snd_landings n.toNat
  have hsum := sum_received hplaces
  rw [hscalars, ← List.sum_ofFn] at hsum
  simp only [List.length_ofFn]
  refine ⟨trivial, hscalars, hplaces, fun j hj => by simp [hj], hsum, fun hkept => ?_⟩
  have hsome : ∀ d ∈ v.landings n.toNat, d.1 ≠ none := by
    intro d hd
    obtain ⟨piece, hp, hd⟩ := List.mem_flatMap.1 hd
    exact ne_none_of_mem_pieceLandings (hkept _ (hv.mem_pieces hp).1) hd
  refine ⟨fun d hd => ?_, ?_⟩
  · obtain ⟨j, hj⟩ := Option.ne_none_iff_exists'.1 (hsome d hd)
    exact ⟨j, hplaces d hd j hj, hj⟩
  · rw [received_eq_zero hsome, add_zero] at hsum
    exact hsum

/-- A block on position -1 in front of one on positions -3 and -2 and one on positions 2 and 3: the
scalar of the first is missing from the entries, all others are found in them. -/
theorem dense_conserves_negative :
    let v : BlockVector ℤ := ⟨[5, 1, 2, 3, 4], [⟨-1, 0⟩, ⟨-3, -1⟩, ⟨2, 4⟩]⟩
    v.WellFormed ∧ v.dense 4 = .ok [0, 1, 5, 4] ∧
      v.landings 4 = [(none, 5), (some 1, 1), (some 2, 2), (some 2, 3), (some 3, 4)] ∧
      [0, 1, 5, 4].sum + received (v.landings 4) none = v.scalars.sum := by
  intro v
  have hv : v.WellFormed := rfl
  have hdense : v.dense 4 = .ok [0, 1, 5, 4] := by decide
  obtain ⟨-, -, -, -, hsum, -⟩ := dense_conserves hv hdense
  exact ⟨hv, hdense, rfl, hsum⟩

/-- A vector of one scalar on position -1, which the constructor accepts, is materialized without
the scalar, where two scalars on positions -2 and -1 are refused. -/
theorem dense_drops_scalar :
    let v : BlockVector ℤ := ⟨[5], [⟨-1, 0⟩]⟩
    let w : BlockVector ℤ := ⟨[5, 6], [⟨-2, 0⟩]⟩
    ofBlock [5] ⟨-1, 0⟩ = .ok v ∧ v.dimension ≤ 3 ∧ v.dense 3 = .ok [0, 0, 0] ∧
      [0, 0, 0].sum ≠ v.scalars.sum ∧ ofBlock [5, 6] ⟨-2, 0⟩ = .ok w ∧
      w.dense 3 = .error .lengthMismatch := by
  intro v w
  have hdense : v.dense 3 = .ok [0, 0, 0] := by decide
  have hrefused : w.dense 3 = .error .lengthMismatch := by decide
  exact ⟨rfl, by decide, hdense, by decide, rfl, hrefused⟩

end BlockVector

end LeastSquares
