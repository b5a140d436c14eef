import LeastSquares.Proofs.Linearization
import LeastSquares.Proofs.Reals
import LeastSquares.Residual.Measurement

/-!
# Linear graphs

A graph of measurements compares points of vector spaces with targets and displacements of such
points with differences (`Measurement`). Its residuals are affine in the joint tangent vector, and
their traces predict every change exactly (`Measurement.exact`), so the linear model of the graph is
no approximation: where an assignment is moved along a tangent vector, the residuals of the factors
are what the model has for its residual (`Graph.linearize_exact`).
-/

namespace LeastSquares

variable {K : Type}

/-- A measurement of one variable, or of the displacement between two. -/
inductive Measurement (K : Type) where
  /-- The variable under a key is measured against a target. -/
  | prior (name : String) (key : Int) (target : Variable K) (weight : K)
  /-- The displacement between the variables under two keys is measured against a difference. -/
  | between (name : String) (first second : Int) (difference : List K) (weight : K)

namespace Measurement

/-- The name that a measurement is shown by. -/
def name : Measurement K → String
  | prior name _ _ _ => name
  | between name _ _ _ _ => name

/-- The keys that a measurement refers to. -/
def keys : Measurement K → List Int
  | prior _ key _ _ => [key]
  | between _ first second _ _ => [first, second]

theorem keys_ne_nil (m : Measurement K) : m.keys ≠ [] := by
  cases m <;> exact List.cons_ne_nil _ _

section
variable [Zero K] [Add K] [Sub K] [Neg K] [Mul K] [Elementary K]

/-- The residual of a measurement. -/
def residual : Measurement K → Residual K
  | prior _ key target weight => .prior target weight key
  | between _ first second difference weight => .between difference weight first second

/-- A measurement as a factor of a graph. -/
def toResidualFactor (m : Measurement K) : ResidualFactor K := ⟨m.name, m.keys, m.residual⟩

end

end Measurement

/-- The graph of some measurements, in order. -/
def Graph.ofMeasurements [Zero K] [One K] [Add K] [Sub K] [Neg K] [Mul K] [Elementary K]
    (ms : List (Measurement K)) : Graph K := ⟨ms.map fun m => m.toResidualFactor.toFactor⟩

/-! ## Exact traces -/

/-- The coordinates of a variable that is found are predicted exactly. -/
theorem Traced.exact_find [CommRing K] {s : Assignment K} (hs : s.IsVector) {keys : List Int}
    {key : Int} (hkey : key ∈ keys) {x : Variable K} (hx : s.find key = .ok x) {d : List K}
    (hd : d.length = s.dimension) :
    ∃ y, (s.translate d).find key = .ok y ∧ y.kind = x.kind ∧
      Exact keys (s.part d) (.coordinates key x) (.coordinates key y) := by
  obtain ⟨-, -, -, -, htranslate⟩ := Assignment.find_translate hx
  have hlen : (s.part d key).length = x.coordinates.length :=
    (Assignment.length_part hx hd).trans (Variable.length_coordinates (hs.kind_find hx)).symm
  exact ⟨_, htranslate d hd, rfl, .coordinates hkey hlen (Variable.coordinates_translate hlen)⟩

section
variable [Field K] [Elementary K] {s : Assignment K}

theorem Traced.displacement_eq {kind : Kind} (hkind : kind.IsVector) (x y : Traced K) :
    Traced.displacement kind x y = y.sub x := by
  cases kind with
  | vector name n => rfl
  | manifold name n => exact hkind.elim

/-- The trace of a measurement that evaluates predicts its changes exactly, from variables under its
keys. -/
theorem Measurement.exact (hs : s.IsVector) {m : Measurement K} {t : Traced K}
    (h : m.residual.trace s = .ok t) :
    (∀ key ∈ m.keys, ∃ x, s.find key = .ok x) ∧
      ∀ d : List K, d.length = s.dimension →
        ∃ u, m.residual.trace (s.translate d) = .ok u ∧ Traced.Exact m.keys (s.part d) t u := by
  cases m with
  | prior name key target weight =>
    simp only [residual, Residual.prior, Residual.readKind, bind_eq_ok, Assignment.get_eq_ok] at h
    obtain ⟨_, ⟨x, ⟨hx, hkind⟩, hcoordinates⟩, r, hr, hscale⟩ := h
    cases hcoordinates
    cases hscale
    have hvec : target.kind.IsVector := hkind ▸ hs.kind_find hx
    rw [Traced.displacement_eq hvec] at hr
    refine ⟨fun k hk => ⟨x, List.mem_singleton.1 hk ▸ hx⟩, fun d hd => ?_⟩
    obtain ⟨y, hy, hykind, hexact⟩ := Traced.exact_find hs (List.mem_singleton_self key) hx hd
    obtain ⟨r', hr', hexact'⟩ := hexact.sub (.constant _ _ _) hr
    refine ⟨r'.scale weight, ?_, hexact'.scale weight⟩
    simp only [residual, Residual.prior, Residual.readKind, bind_eq_ok, Assignment.get_eq_ok]
    exact ⟨_, ⟨y, ⟨hy, hykind.trans hkind⟩, rfl⟩, r', by rwa [Traced.displacement_eq hvec], rfl⟩
  | between name first second difference weight =>
    simp only [residual, Residual.between, Residual.readKind, bind_eq_ok,
      Assignment.get_eq_ok] at h
    obtain ⟨x, hx, _, ⟨y, ⟨hy, hkind⟩, hcoordinates⟩, r, hr, e, he, hscale⟩ := h
    cases hcoordinates
    cases hscale
    have hvec := hs.kind_find hx
    rw [Traced.displacement_eq hvec] at hr
    refine ⟨fun k hk => ?_, fun d hd => ?_⟩
    · rcases List.mem_cons.1 hk with rfl | hk
      · exact ⟨x, hx⟩
      · exact ⟨y, List.mem_singleton.1 hk ▸ hy⟩
    · obtain ⟨x', hx', hxkind, hexactx⟩ := Traced.exact_find hs (List.mem_cons_self ..) hx hd
      obtain ⟨y', hy', hykind, hexacty⟩ := Traced.exact_find hs
        (List.mem_cons_of_mem first (List.mem_singleton_self second)) hy hd
      obtain ⟨r', hr', hexactr⟩ := hexacty.sub hexactx hr
      obtain ⟨e', he', hexacte⟩ := hexactr.sub (.constant _ _ _) he
      refine ⟨e'.scale weight, ?_, hexacte.scale weight⟩
      simp only [residual, Residual.between, Residual.readKind, bind_eq_ok, Assignment.get_eq_ok]
      exact ⟨x', hx', _, ⟨y', ⟨hy', by rw [hykind, hkind, hxkind]⟩, rfl⟩, r',
        by rwa [hxkind, Traced.displacement_eq hvec], e', he', rfl⟩

/-- The assignments that a graph of measurements is linearized at: points of vector spaces under
distinct keys, at which every residual evaluates and has an entry. -/
structure Measurement.Evaluate (ms : List (Measurement K)) (s : Assignment K) : Prop where
  nodup : s.keys.Nodup
  isVector : s.IsVector
  residuals : ∀ m ∈ ms, ∃ r, m.residual.value s = .ok r ∧ r.data ≠ []

/-- A motion leads to an assignment of this kind again. -/
theorem Measurement.Evaluate.translate {ms : List (Measurement K)} (h : Evaluate ms s) {d : List K}
    (hd : d.length = s.dimension) : Evaluate ms (s.translate d) where
  nodup := by
    rw [Assignment.keys_translate]
    exact h.nodup
  isVector := h.isVector.translate d
  residuals m hm := by
    obtain ⟨r, hr, hne⟩ := h.residuals m hm
    obtain ⟨t, ht, hvalue⟩ := bind_eq_ok.1 hr
    cases hvalue
    obtain ⟨u, hu, hexact⟩ := (Measurement.exact h.isVector ht).2 d hd
    refine ⟨u.value, bind_eq_ok.2 ⟨u, hu, rfl⟩, List.length_pos_iff.1 ?_⟩
    rw [u.value.length_data, hexact.shape_eq, ← t.value.length_data]
    exact List.length_pos_iff.2 hne

/-! ## Exact models -/

/-- The linear model of a measurement that evaluates predicts its residual exactly. -/
theorem Measurement.Evaluate.exists_model {ms : List (Measurement K)} (h : Evaluate ms s)
    {m : Measurement K} (hm : m ∈ ms) :
    ∃ model, m.toResidualFactor.toFactor.linearize s = .ok model ∧ model.Regular ∧
      model.matrix.rows = model.bias.dimension ∧ model.matrix.columns ≤ s.dimension ∧
      ∀ d : List K, d.length = s.dimension → ∃ r', m.residual.value (s.translate d) = .ok r' ∧
        model.residual (Dense.toVector s.dimension d) = r'.data := by
  obtain ⟨r, hr, hne⟩ := h.residuals m hm
  obtain ⟨t, ht, hvalue⟩ := bind_eq_ok.1 hr
  cases hvalue
  obtain ⟨hkeys, hexact⟩ := Measurement.exact h.isVector ht
  have hzero : (List.replicate s.dimension (0 : K)).length = s.dimension := List.length_replicate
  -- the way back reads variables under the keys, as any motion shows
  obtain ⟨_, -, hstay⟩ := hexact _ hzero
  obtain ⟨model, hmodel, hregular, hrows, hcolumns, htarget, hproduct⟩ :=
    ResidualFactor.linearize_spec h.nodup h.isVector (f := m.toResidualFactor) m.keys_ne_nil hkeys
      ht hne hstay.mem_keys
  refine ⟨model, hmodel, hregular, hrows, hcolumns, fun d hd => ?_⟩
  obtain ⟨u, hu, hpredicts⟩ := hexact d hd
  refine ⟨u.value, bind_eq_ok.2 ⟨u, hu, rfl⟩, ?_⟩
  rw [LinearModel.residual, hproduct, htarget, Dense.ofFn_toVector_of_length hd]
  exact hpredicts.sub_eq_data

/-- The costs of measurements add up to the squared length of their residuals. -/
theorem Graph.cost_ofMeasurements {ms : List (Measurement K)} {r : Measurement K → Tensor K}
    (h : ∀ m ∈ ms, m.residual.value s = .ok (r m)) :
    (ofMeasurements ms).cost s = .ok (Dense.normSq (ms.flatMap fun m => (r m).data)) := by
  refine cost_eq_ok.2
    ⟨ms.map fun m => Dense.normSq (r m).data, ?_, (Dense.normSq_flatMap _ ms).symm⟩
  rw [ofMeasurements, List.forall₂_map_left_iff, List.forall₂_map_right_iff, List.forall₂_same]
  exact fun m hm => bind_eq_ok.2 ⟨r m, h m hm, rfl⟩

theorem Measurement.Evaluate.exists_cost {ms : List (Measurement K)} (h : Evaluate ms s) :
    ∃ c, (Graph.ofMeasurements ms).cost s = .ok c := by
  have : Nonempty (Tensor K) := ⟨.scalar 0⟩
  choose! r hr _ using h.residuals
  exact ⟨_, Graph.cost_ofMeasurements hr⟩

/-- The linear model of a graph of measurements that evaluate predicts their residuals behind every
motion. -/
theorem Graph.linearize_ofMeasurements {ms : List (Measurement K)} (h : Measurement.Evaluate ms s) :
    ∃ model, (ofMeasurements ms).linearize s = .ok model ∧ model.Regular ∧
      model.matrix.rows = model.bias.dimension ∧ model.matrix.columns ≤ s.dimension ∧
      ∀ d : List K, d.length = s.dimension → ∃ r : Measurement K → Tensor K,
        (∀ m ∈ ms, m.residual.value (s.translate d) = .ok (r m)) ∧
        model.residual (Dense.toVector s.dimension d) = ms.flatMap fun m => (r m).data := by
  choose! model hmodel hregular hrows hcolumns hpredicts using
    fun (m : Measurement K) (hm : m ∈ ms) => h.exists_model hm
  have hall : List.Forall₂ (fun f model => f.linearize s = .ok model)
      (ofMeasurements ms).factors (ms.map model) := by
    simp only [ofMeasurements, List.forall₂_map_left_iff, List.forall₂_map_right_iff,
      List.forall₂_same]
    exact hmodel
  obtain ⟨stack, hstack, hholds⟩ := linearize_holds hall (List.forall_mem_map.2 hregular)
  refine ⟨stack.model, hstack, hholds.regular, hholds.rows_eq ?_,
    hholds.columns_le (Int.natCast_nonneg _) ?_, fun d hd => ?_⟩
  · exact List.forall_mem_map.2 hrows
  · exact List.forall_mem_map.2 hcolumns
  · have : Nonempty (Tensor K) := ⟨.scalar 0⟩
    choose! r hr hresidual using fun m hm => hpredicts m hm d hd
    refine ⟨r, hr, ?_⟩
    rw [hholds.residual_eq, List.flatMap_map, List.flatMap_def, List.flatMap_def,
      List.map_congr_left hresidual]

/-- The squared length of what the linear model has for its residual is the cost behind the motion.
-/
theorem Graph.exists_model_cost {ms : List (Measurement K)} (h : Measurement.Evaluate ms s) :
    ∃ model, (ofMeasurements ms).linearize s = .ok model ∧ model.Regular ∧
      model.matrix.columns ≤ s.dimension ∧
      ∀ d : List K, d.length = s.dimension → (ofMeasurements ms).cost (s.translate d) =
        .ok (Dense.normSq (model.residual (Dense.toVector s.dimension d))) := by
  obtain ⟨model, hmodel, hregular, -, hcolumns, hpredicts⟩ := linearize_ofMeasurements h
  refine ⟨model, hmodel, hregular, hcolumns, fun d hd => ?_⟩
  obtain ⟨r, hr, hresidual⟩ := hpredicts d hd
  rw [cost_ofMeasurements hr, ← hresidual]

/-- The linearization of a graph of measurements is exact: what its linear model has for its
residual at a joint tangent vector are the residuals behind the motion, and so the squared length is
the cost there. -/
theorem Graph.linearize_exact (hs : s.Reachable) (hv : s.IsVector) {ms : List (Measurement K)}
    (hms : ∀ m ∈ ms, ∃ r, m.residual.value s = .ok r ∧ r.data ≠ []) :
    ∃ model, (ofMeasurements ms).linearize s = .ok model ∧
      ∀ d : List K, d.length = s.dimension →
        ∃ (t : Assignment K) (product bias : List K) (residuals : List (Tensor K)),
          s.move (.ofList d) = .ok t ∧
          model.matrix.apply (.dense (.ofList d)) = .ok product ∧
          model.bias.dense model.bias.dimension = .ok bias ∧ product.length = bias.length ∧
          ms.mapM (fun m => m.residual.value t) = .ok residuals ∧
          Dense.sub product bias = (residuals.map (·.data)).flatten ∧
          (ofMeasurements ms).cost t = .ok (Dense.normSq (Dense.sub product bias)) := by
  obtain ⟨model, hmodel, hregular, hrows, hcolumns, hpredicts⟩ :=
    linearize_ofMeasurements ⟨hs.nodup_keys, hv, hms⟩
  refine ⟨model, hmodel, fun d hd => ?_⟩
  obtain ⟨r, hr, hresidual⟩ := hpredicts d hd
  have happly := hregular.apply_eq_product hrows hcolumns (Dense.toVector s.dimension d)
  rw [Dense.ofFn_toVector_of_length hd] at happly
  refine ⟨s.translate d, _, _, ms.map r, Assignment.move_eq hv hd, happly, hregular.dense_eq_target,
    by rw [LinearModel.length_product, LinearModel.length_target], mapM_eq_ok hr, ?_, ?_⟩
  · rw [List.map_map]
    exact hresidual
  · rw [Graph.cost_ofMeasurements hr, ← hresidual]
    rfl

end

/-- A measurement of one variable, and one of its displacement from itself against a difference of
one entry. -/
theorem Graph.linearize_exact_repeated :
    let s : Assignment ℝ := ⟨[(7, ⟨.line, [2], rfl⟩), (3, ⟨.plane, [1, 4], rfl⟩)]⟩
    let ms : List (Measurement ℝ) :=
      [.prior "pin" 3 ⟨.plane, [0, 1], rfl⟩ 2, .between "loop" 3 3 [1] 5]
    s.Reachable ∧ s.IsVector ∧ (∀ m ∈ ms, ∃ r, m.residual.value s = .ok r ∧ r.data ≠ []) ∧
      ∃ (model : LinearModel ℝ) (t : Assignment ℝ) (product bias : List ℝ),
        (ofMeasurements ms).linearize s = .ok model ∧ s.move (.ofList [1, 0, 2]) = .ok t ∧
        model.matrix.apply (.dense (.ofList [1, 0, 2])) = .ok product ∧
        model.bias.dense model.bias.dimension = .ok bias ∧
        (ofMeasurements ms).cost t = .ok (Dense.normSq (Dense.sub product bias)) := by
  have hline : (.empty : Assignment ℝ).insert 7 ⟨.line, [2], rfl⟩ =
      .ok ⟨[(7, ⟨.line, [2], rfl⟩)]⟩ := rfl
  have hplane : (⟨[(7, ⟨.line, [2], rfl⟩)]⟩ : Assignment ℝ).insert 3 ⟨.plane, [1, 4], rfl⟩ =
      .ok ⟨[(7, ⟨.line, [2], rfl⟩), (3, ⟨.plane, [1, 4], rfl⟩)]⟩ := rfl
  have hs := Assignment.Reachable.empty.insert hline |>.insert hplane
  have hv : (⟨[(7, ⟨.line, [2], rfl⟩), (3, ⟨.plane, [1, 4], rfl⟩)]⟩ : Assignment ℝ).IsVector := by
    simp [Assignment.IsVector, Kind.line, Kind.plane, Kind.IsVector]
  have hms : ∀ m ∈ ([.prior "pin" 3 ⟨.plane, [0, 1], rfl⟩ 2, .between "loop" 3 3 [1] 5] :
      List (Measurement ℝ)), ∃ r, m.residual.value
        ⟨[(7, ⟨.line, [2], rfl⟩), (3, ⟨.plane, [1, 4], rfl⟩)]⟩ = .ok r ∧ r.data ≠ [] := by
    intro m hm
    rcases List.mem_cons.1 hm with rfl | hm
    · exact ⟨_, rfl, List.cons_ne_nil _ _⟩
    · rw [List.mem_singleton.1 hm]
      exact ⟨_, rfl, List.cons_ne_nil _ _⟩
  obtain ⟨model, hmodel, hexact⟩ := linearize_exact hs hv hms
  obtain ⟨t, product, bias, -, ht, hproduct, hbias, -, -, -, hcost⟩ := hexact [1, 0, 2] rfl
  exact ⟨hs, hv, hms, model, t, product, bias, hmodel, ht, hproduct, hbias, hcost⟩

end LeastSquares
