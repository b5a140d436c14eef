import LeastSquares.Proofs.Stretching
import LeastSquares.Traced

/-!
# Exact linear predictions

A traced tensor predicts how its value changes when variables move: by the sensitivities, paired
with the motions (`Gradient.pair`). The prediction is exact for a second traced tensor if it holds
for every weighting of the entries (`Traced.Exact`).

The operations that measurements are made of keep exactness, whatever they stretch: constants and
coordinates have it (`Traced.Exact.constant`, `Traced.Exact.coordinates`), and differences and
multiples inherit it (`Traced.Exact.sub`, `Traced.Exact.scale`).
-/

namespace LeastSquares

variable {K : Type}

/-! ## Inner products with differences and multiples -/

namespace Dense

variable [CommRing K]

theorem getD_neg (xs : List K) (i : Nat) : (xs.map (-·)).getD i 0 = -xs.getD i 0 := by
  by_cases hi : i < xs.length <;> simp [hi]

theorem dot_neg (xs ys : List K) : dot (xs.map (-·)) ys = -dot xs ys := by
  simp only [dot_eq_sum, getD_neg, neg_mul, Finset.sum_neg_distrib]

@[simp] theorem normSq_neg (xs : List K) : normSq (xs.map (-·)) = normSq xs := by
  rw [normSq, dot_neg, dot_comm, dot_neg, neg_neg]
  rfl

theorem dot_sub (g : List K) {xs ys : List K} (h : xs.length = ys.length) :
    dot g (sub xs ys) = dot g xs + dot (g.map (-·)) ys := by
  have hsub : ∀ k, (sub xs ys).getD k 0 = xs.getD k 0 - ys.getD k 0 := by
    intro k
    by_cases hk : k < xs.length
    · have hk' : k < ys.length := by omega
      simp [sub, hk, hk']
    · have hk' : ¬k < ys.length := by omega
      simp [sub, hk, hk']
  have hlen : (sub xs ys).length = ys.length := by simp [sub, h]
  rw [dot_neg, ← sub_eq_add_neg, dot_eq_sum, dot_eq_sum, dot_eq_sum, hlen, h,
    ← Finset.sum_sub_distrib]
  simp only [hsub, mul_sub]

theorem dot_map_mul (g xs : List K) (c : K) : dot g (xs.map (· * c)) = dot (g.map (· * c)) xs := by
  rw [dot, dot, List.zipWith_map_left, List.zipWith_map_right]
  congr 2
  funext a b
  ring

/-- The inner product with a unit vector. -/
theorem dot_unit {i : Nat} {xs : List K} (hi : i < xs.length) :
    dot (unit xs.length i) xs = xs.getD i 0 := by
  have hunit : ∀ k < xs.length, (unit xs.length i : List K).getD k 0 = if k = i then 1 else 0 := by
    intro k hk
    rw [List.getD_eq_getElem _ _ (by simpa [unit] using hk)]
    simp [unit]
  rw [dot_eq_sum, Finset.sum_eq_single i]
  · rw [hunit i hi, if_pos rfl, one_mul]
  · intro k hk hne
    rw [hunit k (Finset.mem_range.1 hk), if_neg hne, zero_mul]
  · intro h
    exact absurd (Finset.mem_range.2 hi) h

end Dense

/-- Operands that only lend their length to a list. -/
theorem zipWith_left {β γ δ : Type} (f : β → δ) {xs : List β} {ys : List γ}
    (h : xs.length = ys.length) : List.zipWith (fun x _ => f x) xs ys = xs.map f :=
  List.ext_getElem (by simp [h]) fun i h₁ h₂ => by simp

/-! ## Predictions -/

/-- The change that sensitivities predict for given motions of the variables. -/
def Gradient.pair [Zero K] [Add K] [Mul K] (δ : Int → List K) (g : Gradient K) : K :=
  (g.map fun part => Dense.dot part.2 (δ part.1)).sum

theorem Gradient.pair_append [CommSemiring K] (δ : Int → List K) (g h : Gradient K) :
    Gradient.pair δ (g ++ h) = Gradient.pair δ g + Gradient.pair δ h := by
  simp only [pair, List.map_append, List.sum_append]

namespace Traced

/-- What a traced tensor predicts for given motions of the variables under some keys is what another
one has for its value. -/
structure Exact [Zero K] [Add K] [Mul K] (keys : List Int) (δ : Int → List K) (t u : Traced K) :
    Prop where
  shape_eq : u.value.shape = t.value.shape
  mem_keys : ∀ g : List K, g.length = t.value.data.length → ∀ part ∈ t.adjoint g, part.1 ∈ keys
  dot_eq : ∀ g : List K, g.length = t.value.data.length →
    Dense.dot g u.value.data = Dense.dot g t.value.data + Gradient.pair δ (t.adjoint g)

variable [CommRing K] {keys : List Int} {δ : Int → List K} {s s' t t' : Traced K}

/-- A multiple passes its sensitivities on, multiplied. -/
theorem adjoint_scale {g : List K} (hg : g.length = t.value.data.length) (c : K) :
    (t.scale c).adjoint g = t.adjoint (g.map (· * c)) := congrArg t.adjoint (zipWith_left _ hg)

/-- A difference passes its sensitivities on, gathered, and negated to what is subtracted. -/
theorem adjoint_sub {r : Traced K} (h : s.sub t = .ok r) {g : List K}
    (hg : g.length = r.value.data.length) :
    r.adjoint g = t.adjoint (gather t.value.shape r.value.shape (g.map (-·))) ++
      s.adjoint (gather s.value.shape r.value.shape g) := by
  have hvalue := value_combine h
  obtain ⟨hsr, htr, -⟩ := Tensor.combine_spec hvalue
  -- the way back does not look at the values of the operands, only at their number
  have hoperands : g.length =
      ((s.value.spread r.value.shape).zip (t.value.spread r.value.shape)).length := by
    rw [List.length_zip, Tensor.length_spread hsr, Tensor.length_spread htr, Nat.min_self, hg,
      r.value.length_data]
  have hleft : List.zipWith (fun x _ => x) g
      ((s.value.spread r.value.shape).zip (t.value.spread r.value.shape)) = g :=
    (zipWith_left id hoperands).trans (List.map_id g)
  have hright := zipWith_left (fun x => -x) hoperands
  rw [Traced.sub, combine, hvalue] at h
  have hadjoint := congrArg (fun r => r.adjoint g) (Except.ok.inj h)
  simp only [hleft, hright] at hadjoint
  exact hadjoint.symm

namespace Exact

/-- A tensor that does not depend on variables does not change. -/
theorem constant (keys : List Int) (δ : Int → List K) (t : Tensor K) :
    Exact keys δ (.constant t) (.constant t) where
  shape_eq := rfl
  mem_keys _ _ _ h := absurd h List.not_mem_nil
  dot_eq _ _ := (add_zero _).symm

/-- The coordinates of a variable change by its motion. -/
theorem coordinates {key : Int} {x y : Variable K} (hkey : key ∈ keys)
    (hlen : (δ key).length = x.coordinates.length)
    (hy : y.coordinates = Dense.add x.coordinates (δ key)) :
    Exact keys δ (.coordinates key x) (.coordinates key y) where
  shape_eq := by
    simp only [value_coordinates, Tensor.shape_ofList, hy, Dense.add, List.length_zipWith, hlen,
      Nat.min_self]
  mem_keys _ _ part h := by
    rw [List.mem_singleton.1 h]
    exact hkey
  dot_eq g _ := by
    have hpair : Gradient.pair δ ((Traced.coordinates key x).adjoint g) = Dense.dot g (δ key) :=
      add_zero _
    rw [hpair, value_coordinates, value_coordinates, Tensor.data_ofList, Tensor.data_ofList, hy,
      Dense.dot_comm g (Dense.add _ _), Dense.dot_add hlen.symm, Dense.dot_comm _ g,
      Dense.dot_comm _ g]

/-- Multiples are predicted exactly. -/
theorem scale (h : Exact keys δ t t') (c : K) : Exact keys δ (t.scale c) (t'.scale c) := by
  have hlen : (t.scale c).value.data.length = t.value.data.length := List.length_map _
  refine ⟨h.shape_eq, fun g hg part hpart => ?_, fun g hg => ?_⟩
  · rw [adjoint_scale (hg.trans hlen)] at hpart
    exact h.mem_keys _ (by rw [List.length_map, hg, hlen]) part hpart
  · rw [adjoint_scale (hg.trans hlen)]
    simp only [Traced.scale, value_map, Tensor.data_map, Dense.dot_map_mul]
    exact h.dot_eq _ (by rw [List.length_map, hg, hlen])

/-- Differences are predicted exactly, whatever is stretched. -/
theorem sub (hs : Exact keys δ s s') (ht : Exact keys δ t t') {r : Traced K}
    (h : s.sub t = .ok r) : ∃ r', s'.sub t' = .ok r' ∧ Exact keys δ r r' := by
  have hvalue := value_combine h
  obtain ⟨hsr, htr, hdata⟩ := Tensor.combine_spec hvalue
  obtain ⟨v, hv, hshape⟩ := Tensor.combine_of_shapes hs.shape_eq ht.shape_eq hvalue
  obtain ⟨hsv, htv, hdata'⟩ := Tensor.combine_spec hv
  rw [hshape] at hsv htv hdata'
  refine ⟨_, by rw [Traced.sub, combine, hv]; rfl, hshape, fun g hg part hpart => ?_,
    fun g hg => ?_⟩
  all_goals
    have hvolume : g.length = volume r.value.shape := hg.trans r.value.length_data
    have hneg : (g.map (-·)).length = volume r.value.shape := by rw [List.length_map, hvolume]
    have hlen := (Tensor.length_gather hsr hvolume).trans s.value.length_data.symm
    have hlen' := (Tensor.length_gather htr hneg).trans t.value.length_data.symm
  · rw [adjoint_sub h hg] at hpart
    rcases List.mem_append.1 hpart with hpart | hpart
    · exact ht.mem_keys _ hlen' part hpart
    · exact hs.mem_keys _ hlen part hpart
  · have hspread : (s.value.spread r.value.shape).length =
        (t.value.spread r.value.shape).length := by
      rw [Tensor.length_spread hsr, Tensor.length_spread htr]
    have hspread' : (s'.value.spread r.value.shape).length =
        (t'.value.spread r.value.shape).length := by
      rw [Tensor.length_spread hsv, Tensor.length_spread htv]
    rw [adjoint_sub h hg, hdata, hdata', ← Dense.sub, ← Dense.sub, Dense.dot_sub g hspread,
      Dense.dot_sub g hspread', Tensor.dot_spread hsr hvolume, Tensor.dot_spread htr hneg,
      Tensor.dot_spread hsv hvolume, Tensor.dot_spread htv hneg, hs.shape_eq, ht.shape_eq,
      hs.dot_eq _ hlen, ht.dot_eq _ hlen', Gradient.pair_append]
    ring

/-- The changes predicted entry by entry, less the opposite of the value, are the value behind the
motions. -/
theorem sub_eq_data (h : Exact keys δ t t') :
    Dense.sub (List.ofFn fun i : Fin t.value.data.length => Gradient.pair δ
      (t.adjoint (Dense.unit t.value.data.length i))) (t.value.data.map (-·)) = t'.value.data := by
  have hlen : t'.value.data.length = t.value.data.length := by
    rw [t'.value.length_data, t.value.length_data, h.shape_eq]
  refine List.ext_getElem (by simp [Dense.sub, hlen]) fun i h₁ h₂ => ?_
  have hi : i < t.value.data.length := hlen ▸ h₂
  have hdot := h.dot_eq (Dense.unit t.value.data.length i) (by simp [Dense.unit])
  rw [Dense.dot_unit hi, ← hlen, Dense.dot_unit h₂, List.getD_eq_getElem _ _ h₂,
    List.getD_eq_getElem _ _ hi, hlen] at hdot
  simp only [Dense.sub, List.getElem_zipWith, List.getElem_ofFn, List.getElem_map]
  rw [hdot]
  ring

end Exact

end Traced

end LeastSquares
