import LeastSquares.Proofs.Materialization
import LeastSquares.Tensor

/-!
# Stretched tensors

A shape stretches to a target if, ones put in front of it, every axis agrees with that of the target
or has length 1 (`StretchesTo`). Two shapes that are matched both stretch to the common shape
(`stretchesTo_of_joinShapes`), and so do the operands of every combination of tensors
(`Tensor.combine_spec`).

Repeating entries and summing over the repetitions are adjoint to each other: the inner product of a
list with stretched entries is that of the gathered list with the entries (`Tensor.dot_spread`).

Vectors combine when their lengths agree or one of them has a single entry, which is repeated
(`Tensor.combine_ofList_of_joins`); others are refused (`Tensor.combine_ofList_of_not_joins`).
-/

namespace LeastSquares

variable {K : Type}

/-! ## Buffers of rows -/

/-- The rows of a buffer, one after the other, are the buffer. -/
theorem flatten_rowsOf {r c : Nat} {xs : List K} (h : xs.length = r * c) :
    (rowsOf r c xs).flatten = xs := by
  refine flatten_runs ?_
  rw [h]
  clear h
  induction r with
  | zero => simp
  | succ r ih => rw [List.replicate_succ, total_cons, ih, Nat.succ_mul, Nat.add_comm]

namespace Dense

section
variable [CommSemiring K] {a b : Nat}

/-- Functions of rows that are adjoint to each other are so row by row. -/
theorem dot_flatten_map {spread gather : List K → List K}
    (hspread : ∀ v, v.length = b → (spread v).length = a)
    (hgather : ∀ u, u.length = a → (gather u).length = b)
    (h : ∀ u v, u.length = a → v.length = b → dot u (spread v) = dot (gather u) v)
    {us vs : List (List K)} (hlen : us.length = vs.length) (hu : ∀ u ∈ us, u.length = a)
    (hv : ∀ v ∈ vs, v.length = b) :
    dot us.flatten (vs.map spread).flatten = dot (us.map gather).flatten vs.flatten := by
  induction us generalizing vs with
  | nil =>
    cases vs with
    | nil => rfl
    | cons v vs => cases hlen
  | cons u us ih =>
    cases vs with
    | nil => cases hlen
    | cons v vs =>
      have hu₀ := hu u (List.mem_cons_self ..)
      have hv₀ := hv v (List.mem_cons_self ..)
      simp only [List.map_cons, List.flatten_cons]
      rw [dot_append (hu₀.trans (hspread v hv₀).symm), dot_append ((hgather u hu₀).trans hv₀.symm),
        h u v hu₀ hv₀, ih (Nat.succ.inj hlen) (fun u hu' => hu u (List.mem_cons_of_mem _ hu'))
          fun v hv' => hv v (List.mem_cons_of_mem _ hv')]

/-- The inner product with one row repeated. -/
theorem dot_flatten_replicate {us : List (List K)} (hu : ∀ u ∈ us, u.length = a) {v : List K}
    (hv : v.length = a) :
    dot us.flatten (List.replicate us.length v).flatten = (us.map (dot · v)).sum := by
  induction us with
  | nil => rfl
  | cons u us ih =>
    have hu₀ := hu u (List.mem_cons_self ..)
    rw [List.length_cons, List.replicate_succ, List.flatten_cons, List.flatten_cons,
      dot_append (hu₀.trans hv.symm), ih fun u hu' => hu u (List.mem_cons_of_mem _ hu'),
      List.map_cons, List.sum_cons]

omit [CommSemiring K] in
/-- Added lists of one length keep it. -/
theorem length_foldl_add [Add K] {us : List (List K)} (hu : ∀ u ∈ us, u.length = a)
    {acc : List K} (hacc : acc.length = a) : (us.foldl add acc).length = a := by
  induction us generalizing acc with
  | nil => exact hacc
  | cons u us ih =>
    have hu₀ := hu u (List.mem_cons_self ..)
    refine ih (fun u hu' => hu u (List.mem_cons_of_mem _ hu')) ?_
    rw [add, List.length_zipWith, hacc, hu₀, Nat.min_self]

/-- The inner product with added lists. -/
theorem dot_foldl_add {us : List (List K)} (hu : ∀ u ∈ us, u.length = a) {acc : List K}
    (hacc : acc.length = a) (v : List K) :
    dot (us.foldl add acc) v = dot acc v + (us.map (dot · v)).sum := by
  induction us generalizing acc with
  | nil => simp
  | cons u us ih =>
    have hu₀ := hu u (List.mem_cons_self ..)
    have hadd : (add acc u).length = a := by rw [add, List.length_zipWith, hacc, hu₀, Nat.min_self]
    rw [List.foldl_cons, ih (fun u hu' => hu u (List.mem_cons_of_mem _ hu')) hadd,
      dot_add (hacc.trans hu₀.symm), List.map_cons, List.sum_cons, add_assoc]

theorem dot_replicate_zero (n : Nat) (v : List K) : dot (List.replicate n 0) v = 0 := by
  rw [dot_eq_sum]
  refine Finset.sum_eq_zero fun k _ => ?_
  have hzero : (List.replicate n (0 : K)).getD k 0 = 0 :=
    List.getElem?_getD_replicate_default_eq 0 n k
  rw [hzero, zero_mul]

end

end Dense

/-! ## Matched axes -/

/-- Whether every axis agrees with that of the target or has length 1. -/
def Matches : List Nat → List Nat → Prop := List.Forall₂ fun m n => m = n ∨ m = 1

/-- Whether entries of a shape can be repeated to fill a target shape. -/
def StretchesTo (shape target : List Nat) : Prop := Matches (padShape target.length shape) target

theorem Matches.refl (ms : List Nat) : Matches ms ms := List.forall₂_same.2 fun _ _ => .inl rfl

theorem matches_replicate_one (ms : List Nat) : Matches (List.replicate ms.length 1) ms := by
  induction ms with
  | nil => exact .nil
  | cons m ms ih => exact .cons (.inr rfl) ih

/-- The common length of two axes matches both. -/
theorem joinAxes_eq_some {m n k : Nat} (h : joinAxes m n = some k) :
    (m = k ∨ m = 1) ∧ (n = k ∨ n = 1) := by
  unfold joinAxes at h
  split at h
  · rename_i heq
    cases h
    exact ⟨.inl rfl, .inl heq.symm⟩
  · split at h
    · rename_i h1
      cases h
      exact ⟨.inr h1, .inl rfl⟩
    · split at h
      · rename_i h1
        cases h
        exact ⟨.inl rfl, .inr h1⟩
      · cases h

/-- The common shape of two shapes whose last axes come first matches both, ones put behind. -/
theorem joinReversed_eq_some {ms ns ks : List Nat} (h : joinReversed ms ns = some ks) :
    Matches (ms ++ List.replicate (ks.length - ms.length) 1) ks ∧
      Matches (ns ++ List.replicate (ks.length - ns.length) 1) ks := by
  induction ms generalizing ns ks with
  | nil =>
    cases h
    simpa using ⟨matches_replicate_one ns, Matches.refl ns⟩
  | cons m ms ih =>
    cases ns with
    | nil =>
      cases h
      simpa using ⟨Matches.refl (m :: ms), matches_replicate_one (m :: ms)⟩
    | cons n ns =>
      simp only [joinReversed, Option.bind_eq_bind, Option.bind_eq_some_iff,
        Option.some.injEq] at h
      obtain ⟨k, hk, ks, hks, rfl⟩ := h
      obtain ⟨hm, hn⟩ := joinAxes_eq_some hk
      obtain ⟨hms, hns⟩ := ih hks
      simp only [List.length_cons, Nat.add_sub_add_right, List.cons_append]
      exact ⟨.cons hm hms, .cons hn hns⟩

/-- Both shapes stretch to their common shape. -/
theorem stretchesTo_of_joinShapes {ms ns ks : List Nat} (h : joinShapes ms ns = some ks) :
    StretchesTo ms ks ∧ StretchesTo ns ks := by
  obtain ⟨rs, hrs, rfl⟩ := Option.map_eq_some_iff.1 h
  obtain ⟨hms, hns⟩ := joinReversed_eq_some hrs
  have hpad : ∀ shape : List Nat,
      Matches (shape.reverse ++ List.replicate (rs.length - shape.reverse.length) 1) rs →
      StretchesTo shape rs.reverse := by
    intro shape hshape
    have hreverse := List.rel_reverse hshape
    simpa [StretchesTo, Matches, padShape] using hreverse
  exact ⟨hpad ms hms, hpad ns hns⟩

theorem StretchesTo.refl (shape : List Nat) : StretchesTo shape shape := by
  simpa [StretchesTo, padShape] using Matches.refl shape

/-- Axes of length 1 in front do not change the number of entries. -/
theorem volume_padShape (axes : Nat) (shape : List Nat) :
    volume (padShape axes shape) = volume shape := by
  rw [padShape]
  induction axes - shape.length with
  | zero => rfl
  | succ k ih => rw [List.replicate_succ, List.cons_append, volume_cons, ih, Nat.one_mul]

/-! ## Repetition and summation -/

/-- Repeated entries fill the target. -/
theorem length_spreadAxes {ms ns : List Nat} (h : Matches ms ns) {xs : List K}
    (hx : xs.length = volume ms) : (spreadAxes ms ns xs).length = volume ns := by
  induction h generalizing xs with
  | nil => exact hx
  | @cons m n ms ns hmn hms ih =>
    rw [volume_cons] at hx
    have hrow : ∀ part ∈ (rowsOf m (volume ms) xs).map (spreadAxes ms ns),
        part.length = volume ns := by
      intro part hpart
      obtain ⟨row, hr, rfl⟩ := List.mem_map.1 hpart
      exact ih (length_of_mem_rowsOf hx hr)
    simp only [spreadAxes]
    split
    · rename_i heq
      subst heq
      rw [length_flatten_rows hrow]
      simp
    · rename_i hne
      have h1 : m = 1 := hmn.resolve_left hne
      subst h1
      have hhead : ((rowsOf 1 (volume ms) xs).map (spreadAxes ms ns)).headD [] ∈
          (rowsOf 1 (volume ms) xs).map (spreadAxes ms ns) := by
        simp [rowsOf, runs]
      simp only [List.length_flatten, List.map_replicate, List.sum_replicate, hrow _ hhead]
      simp

section
variable [Zero K] [Add K]

/-- Summed entries fill the shape. -/
theorem length_gatherAxes {ms ns : List Nat} (h : Matches ms ns) {ys : List K}
    (hy : ys.length = volume ns) : (gatherAxes ms ns ys).length = volume ms := by
  induction h generalizing ys with
  | nil => exact hy
  | @cons m n ms ns hmn hms ih =>
    rw [volume_cons] at hy
    have hrow : ∀ part ∈ (rowsOf n (volume ns) ys).map (gatherAxes ms ns),
        part.length = volume ms := by
      intro part hpart
      obtain ⟨row, hr, rfl⟩ := List.mem_map.1 hpart
      exact ih (length_of_mem_rowsOf hy hr)
    simp only [gatherAxes]
    split
    · rename_i heq
      subst heq
      rw [length_flatten_rows hrow]
      simp
    · rename_i hne
      have h1 : m = 1 := hmn.resolve_left hne
      subst h1
      rw [Dense.length_foldl_add hrow (by simp), volume_cons, Nat.one_mul]

end

/-- Repetition along axes is adjoint to summation along them. -/
theorem dot_spreadAxes [CommSemiring K] {ms ns : List Nat} (h : Matches ms ns) {xs ys : List K}
    (hx : xs.length = volume ms) (hy : ys.length = volume ns) :
    Dense.dot ys (spreadAxes ms ns xs) = Dense.dot (gatherAxes ms ns ys) xs := by
  induction h generalizing xs ys with
  | nil => rfl
  | @cons m n ms ns hmn hms ih =>
    rw [volume_cons] at hx hy
    have hys : ∀ u ∈ rowsOf n (volume ns) ys, u.length = volume ns :=
      fun u hu => length_of_mem_rowsOf hy hu
    simp only [spreadAxes, gatherAxes]
    split
    · rename_i heq
      subst heq
      have hrows := Dense.dot_flatten_map (fun v hv => length_spreadAxes hms hv)
        (fun u hu => length_gatherAxes hms hu) (fun u v hu hv => ih hv hu)
        (by rw [length_rowsOf, length_rowsOf]) hys fun v hv => length_of_mem_rowsOf hx hv
      rwa [flatten_rowsOf hx, flatten_rowsOf hy] at hrows
    · rename_i hne
      have h1 : m = 1 := hmn.resolve_left hne
      subst h1
      rw [Nat.one_mul] at hx
      have hhead : ((rowsOf 1 (volume ms) xs).map (spreadAxes ms ns)).headD [] =
          spreadAxes ms ns xs := by
        simp [rowsOf, runs, ← hx]
      have hgather : ∀ part ∈ (rowsOf n (volume ns) ys).map (gatherAxes ms ns),
          part.length = volume ms := by
        intro part hpart
        obtain ⟨row, hr, rfl⟩ := List.mem_map.1 hpart
        exact length_gatherAxes hms (hys row hr)
      have hreplicate := Dense.dot_flatten_replicate hys (length_spreadAxes hms hx)
      rw [flatten_rowsOf hy, length_rowsOf] at hreplicate
      rw [hhead, hreplicate, Dense.dot_foldl_add hgather (by simp), Dense.dot_replicate_zero,
        zero_add, List.map_map]
      exact congrArg List.sum (List.map_congr_left fun u hu => ih hx (hys u hu))

/-! ## Operands of a combination -/

namespace Tensor

/-- A stretched tensor fills the target. -/
theorem length_spread {t : Tensor K} {target : List Nat} (h : StretchesTo t.shape target) :
    (t.spread target).length = volume target := by
  rw [spread]
  split
  · rename_i heq
    rw [← heq]
    exact t.length_data
  · exact length_spreadAxes h (t.length_data.trans (volume_padShape ..).symm)

/-- Gathered entries fill the shape. -/
theorem length_gather [Zero K] [Add K] {shape target : List Nat} (h : StretchesTo shape target)
    {g : List K} (hg : g.length = volume target) :
    (gather shape target g).length = volume shape := by
  rw [gather]
  split
  · rename_i heq
    rwa [heq]
  · rw [length_gatherAxes h hg, volume_padShape]

/-- Stretching is adjoint to gathering. -/
theorem dot_spread [CommSemiring K] {t : Tensor K} {target : List Nat}
    (h : StretchesTo t.shape target) {g : List K} (hg : g.length = volume target) :
    Dense.dot g (t.spread target) = Dense.dot (gather t.shape target g) t.data := by
  rw [spread, gather]
  split
  · rfl
  · exact dot_spreadAxes h (t.length_data.trans (volume_padShape ..).symm) hg

/-- A combination stretches both operands to its shape and combines them entry by entry. -/
theorem combine_spec {f : K → K → K} {s t u : Tensor K} (h : s.combine f t = .ok u) :
    StretchesTo s.shape u.shape ∧ StretchesTo t.shape u.shape ∧
      u.data = List.zipWith f (s.spread u.shape) (t.spread u.shape) := by
  unfold combine at h
  split at h
  · rename_i heq
    rw [ofData, dif_pos (length_zipWith_data f heq)] at h
    cases h
    have ht : t.spread s.shape = t.data := by rw [heq, spread_self]
    refine ⟨.refl _, heq ▸ .refl _, ?_⟩
    change _ = List.zipWith f (s.spread s.shape) (t.spread s.shape)
    rw [spread_self, ht]
  · split at h
    · rename_i target htarget
      obtain ⟨hs, ht⟩ := stretchesTo_of_joinShapes htarget
      unfold ofData at h
      split at h
      · cases h
        exact ⟨hs, ht, rfl⟩
      · cases h
    · cases h

/-- Whether two tensors combine depends on their shapes, and so does the shape of the result. -/
theorem combine_of_shapes {f : K → K → K} {s t s' t' u : Tensor K} (hs : s'.shape = s.shape)
    (ht : t'.shape = t.shape) (h : s.combine f t = .ok u) :
    ∃ u', s'.combine f t' = .ok u' ∧ u'.shape = u.shape := by
  obtain ⟨hsu, htu, -⟩ := combine_spec h
  unfold combine at h
  split at h
  · rename_i heq
    rw [ofData, dif_pos (length_zipWith_data f heq)] at h
    cases h
    exact ⟨_, combine_of_shape_eq f (by rw [hs, ht, heq]), hs⟩
  · rename_i hne
    split at h
    · rename_i target htarget
      unfold ofData at h
      split at h
      · cases h
        have hlen : (List.zipWith f (s'.spread target) (t'.spread target)).length =
            volume target := by
          rw [List.length_zipWith, length_spread (hs ▸ hsu), length_spread (ht ▸ htu),
            Nat.min_self]
        refine ⟨⟨target, _, hlen⟩, ?_, rfl⟩
        rw [combine, hs, ht, if_neg hne, htarget]
        exact dif_pos hlen
      · cases h
    · cases h

end Tensor

/-! ## Vectors of two lengths -/

variable {α β γ : Type}

/-- Whether vectors of two lengths combine. -/
def Joins (m n : Nat) : Prop := m = n ∨ m = 1 ∨ n = 1

instance (m n : Nat) : Decidable (Joins m n) :=
  inferInstanceAs (Decidable (m = n ∨ m = 1 ∨ n = 1))

/-- The common length of two lengths that combine. -/
def joinedLength (m n : Nat) : Nat := if m = 1 then n else m

/-- The place of a vector that a place of the stretched vector repeats. -/
def stretchedPlace (length i : Nat) : Nat := if length = 1 then 0 else i

theorem Joins.joinAxes_eq {m n : Nat} (h : Joins m n) : joinAxes m n = some (joinedLength m n) := by
  grind [Joins, joinAxes, joinedLength]

theorem joinAxes_of_not_joins {m n : Nat} (h : ¬Joins m n) : joinAxes m n = none := by
  grind [Joins, joinAxes]

theorem stretchedPlace_of_lt {length i : Nat} (h : i < length) : stretchedPlace length i = i := by
  unfold stretchedPlace
  split <;> omega

/-- What is repeated is a place of the vector. -/
theorem stretchedPlace_lt {m n i : Nat} (h : i < joinedLength m n) : stretchedPlace m i < m := by
  unfold joinedLength at h
  unfold stretchedPlace
  split_ifs at h ⊢ with hm <;> omega

namespace Tensor

theorem spread_ofList (xs : List α) : (ofList xs).spread [xs.length] = xs := spread_self (ofList xs)

/-- A single entry is repeated. -/
theorem spread_singleton (x : α) (k : Nat) : (ofList [x]).spread [k] = List.replicate k x := by
  unfold spread
  split
  · rename_i h
    obtain rfl : 1 = k := by simpa using h
    rfl
  · rename_i h
    have hk : ¬1 = k := by simpa using h
    simp [padShape, spreadAxes, rowsOf, runs, hk]

theorem ofData_singleton {xs : List α} {n : Nat} (h : xs.length = n) :
    ofData [n] xs = .ok (ofList xs) := by
  subst h
  exact dif_pos (ofList xs).length_data

section
variable {xs : List α} {ys : List β} {k : Nat}

theorem length_spread_ofList (h : xs.length = k ∨ xs.length = 1) :
    ((ofList xs).spread [k]).length = k := by
  rcases h with rfl | h
  · rw [spread_ofList]
  · obtain ⟨x, rfl⟩ := List.length_eq_one_iff.1 h
    rw [spread_singleton, List.length_replicate]

/-- What a stretched vector holds at a place. -/
theorem getD_spread (h : xs.length = k ∨ xs.length = 1) {i : Nat} (hi : i < k) (default : α) :
    ((ofList xs).spread [k]).getD i default = xs.getD (stretchedPlace xs.length i) default := by
  rcases h with rfl | h
  · rw [spread_ofList, stretchedPlace_of_lt hi]
  · obtain ⟨x, rfl⟩ := List.length_eq_one_iff.1 h
    simp [spread_singleton, stretchedPlace, hi]

theorem joinShapes_singleton (m n : Nat) :
    joinShapes [m] [n] = (joinAxes m n).map fun k => [k] := by
  cases h : joinAxes m n <;> simp [joinShapes, joinReversed, h]

/-- Vectors of lengths that combine are stretched to the common length and combine entry by
entry. -/
theorem combine_ofList_of_joins (f : α → β → γ) (h : Joins xs.length ys.length) :
    ∃ zs, (ofList xs).combine f (ofList ys) = .ok (ofList zs) ∧
      zs.length = joinedLength xs.length ys.length ∧ ∀ i < zs.length, ∀ a b c,
        zs.getD i c = f (xs.getD (stretchedPlace xs.length i) a)
          (ys.getD (stretchedPlace ys.length i) b) := by
  have hjoin := h.joinAxes_eq
  obtain ⟨hxs, hys⟩ := joinAxes_eq_some hjoin
  have hlen : (List.zipWith f ((ofList xs).spread [joinedLength xs.length ys.length])
      ((ofList ys).spread [joinedLength xs.length ys.length])).length =
        joinedLength xs.length ys.length := by
    rw [List.length_zipWith, length_spread_ofList hxs, length_spread_ofList hys, Nat.min_self]
  refine ⟨_, ?_, hlen, fun i hi a b c => ?_⟩
  · by_cases heq : xs.length = ys.length
    · have hk : joinedLength xs.length ys.length = xs.length := by
        unfold joinedLength
        split <;> omega
      rw [combine_ofList f heq, hk, spread_ofList, heq, spread_ofList]
    · rw [combine, if_neg (by simpa using heq)]
      simp only [shape_ofList, joinShapes_singleton, hjoin, Option.map_some]
      exact ofData_singleton hlen
  · rw [hlen] at hi
    rw [← getD_spread hxs hi, ← getD_spread hys hi]
    have hx := (length_spread_ofList hxs).symm ▸ hi
    have hy := (length_spread_ofList hys).symm ▸ hi
    simp [List.getD_eq_getElem?_getD, hx, hy]

/-- Vectors of other lengths are refused. -/
theorem combine_ofList_of_not_joins (f : α → β → γ) (h : ¬Joins xs.length ys.length) :
    (ofList xs).combine f (ofList ys) = .error .lengthMismatch := by
  have hne : ¬xs.length = ys.length := fun heq => h (.inl heq)
  rw [combine, if_neg (by simpa using hne)]
  simp only [shape_ofList, joinShapes_singleton, joinAxes_of_not_joins h]
  rfl

end

end Tensor

end LeastSquares
