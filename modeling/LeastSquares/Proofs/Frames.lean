import LeastSquares.Proofs.Decrease
import LeastSquares.Proofs.Distance
import LeastSquares.Proofs.JointAxes
import LeastSquares.Proofs.Occurrences

/-!
# Variables that no factor refers to

The method of Gauss and Newton leaves variables alone that no factor refers to. The blocks of a
residual take only the parts of a joint tangent vector that belong to its keys, so the linear model
ignores every vector whose parts under the keys are zero (`LinearModel.Ignores`,
`Graph.ofResiduals_ignores`). A solution that begins at zero stays in the row space and is therefore
orthogonal to all that the model ignores (`LinearModel.Over.solve_orthogonal`), in particular to
each coordinate of an unreferenced variable, wherever its span lies. So its part of the solution is
zero (`Assignment.part_eq_zeros`), and a variable that stays in place along zero is found unchanged
behind every move (`Minimizer.Settings.Steps.find_eq`) and at the end of every run
(`Minimizer.Settings.minimize_find`).
-/

open scoped Matrix

namespace LeastSquares

variable {K : Type}

/-! ## Vectors that a model ignores -/

/-- The matrix of a model takes a vector to zero. -/
def LinearModel.Ignores [NonUnitalNonAssocSemiring K] {n : Nat} (model : LinearModel K)
    (d : Fin n → K) : Prop := ∀ c ∈ model.product d, c = 0

/-- A joint tangent vector whose parts under some keys are zero. -/
def Assignment.Apart [Zero K] (s : Assignment K) (keys : List Int) (d : Fin s.dimension → K) :
    Prop :=
  ∀ key ∈ keys, ∀ x, s.find key = .ok x →
    s.part (List.ofFn d) key = List.replicate x.kind.dimension 0

section
variable [CommRing K] [Elementary K] {s u : Assignment K} {model : LinearModel K}

/-- The model of a residual ignores a joint tangent vector without parts under its keys. -/
theorem ResidualFactor.Linearizes.ignores {f : ResidualFactor K} {t : Traced K}
    {blocks : List (Int × List (List K))} (h : f.Linearizes s u t blocks model)
    {d : Fin s.dimension → K} (hd : s.Apart f.keys d) : model.Ignores d := by
  obtain ⟨hkeys, hblocks⟩ := of_jacobianBlocks h.blocks_eq
  obtain ⟨-, -, -, -, hproduct⟩ := h.spec
  intro c hc
  rw [hproduct] at hc
  obtain ⟨i, rfl⟩ := List.mem_ofFn.1 hc
  refine List.sum_eq_zero fun z hz => ?_
  obtain ⟨block, hblock, rfl⟩ := List.mem_map.1 hz
  obtain ⟨x, hx, -⟩ := hblocks i (by rw [Traced.length_gradients]; exact i.2) block hblock
  rw [hd _ (hkeys ▸ List.mem_map_of_mem hblock) x hx, Dense.dot_comm, Dense.dot_replicate_zero]

theorem Graph.mem_keys_ofResiduals {fs : List (ResidualFactor K)} {key : Int} :
    key ∈ (ofResiduals fs).keys ↔ ∃ f ∈ fs, key ∈ f.keys := by
  simp [keys, ofResiduals, ResidualFactor.toFactor]

/-- The model of a graph of residuals ignores a vector without parts under the keys of the graph. -/
theorem Graph.ofResiduals_ignores {fs : List (ResidualFactor K)}
    (h : (ofResiduals fs).linearize s = .ok model) {d : Fin s.dimension → K}
    (hd : s.Apart (ofResiduals fs).keys d) : model.Ignores d := by
  obtain ⟨models, -, hmodels, -, -⟩ := linearize_eq_ok.1 h
  have hfactor : ∀ m ∈ models, ∃ f ∈ fs, f.linearize s = .ok m := by
    rw [ofResiduals, List.forall₂_map_left_iff] at hmodels
    exact forall_mem_of_forall₂ hmodels fun f hf m hm => ⟨f, hf, hm⟩
  obtain ⟨stack, hstack, hholds⟩ := linearize_holds hmodels fun m hm => by
    obtain ⟨f, -, hf⟩ := hfactor m hm
    exact (ResidualFactor.linearize_over hf).regular
  obtain rfl : model = stack.model := Except.ok.inj (h.symm.trans hstack)
  intro c hc
  rw [hholds.product_eq] at hc
  obtain ⟨_, hproduct, hc⟩ := List.mem_flatten.1 hc
  obtain ⟨m, hm, rfl⟩ := List.mem_map.1 hproduct
  obtain ⟨f, hfs, hf⟩ := hfactor m hm
  obtain ⟨u, t, blocks, hf⟩ := ResidualFactor.linearize_eq_ok.1 hf
  exact hf.ignores (fun key hkey => hd key (mem_keys_ofResiduals.2 ⟨f, hfs, hkey⟩)) c hc

end

/-- A solution that begins at zero is orthogonal to every vector that the model ignores. -/
theorem LinearModel.Over.solve_orthogonal [Field K] [LinearOrder K] [IsStrictOrderedRing K]
    {model : LinearModel K} {n : Nat} (h : model.Over n) {settings : LinearSettings K}
    {solution : Solution K} (hsolve : settings.solve model.matrix (.sparse model.bias)
      (.ofList (List.replicate n 0)) = .ok solution) :
    ∃ y : Fin n → K, solution.last.x = List.ofFn y ∧ ∀ d, model.Ignores d → y ⬝ᵥ d = 0 := by
  cases hsolve.symm.trans (h.solve_eq settings)
  obtain ⟨k, -, hlast, -, hgamma⟩ := Search.solve_eq_after (model.toMatrix n) settings.precision
    settings.maxIterations.toNat model.toVector 0
  refine ⟨_, congrArg (fun σ : Search _ n K => List.ofFn σ.x) hlast, fun d hd => ?_⟩
  obtain ⟨w, hw⟩ := Search.after_sub_mem_rowSpace hgamma
  rw [sub_zero, Matrix.mulVecLin_apply] at hw
  have hzero : model.toMatrix n *ᵥ d = 0 := funext fun i => hd _ (List.mem_ofFn.2 ⟨i, rfl⟩)
  rw [← hw, transpose_mulVec_dotProduct, hzero, dotProduct_zero]

/-! ## Variables without parts -/

namespace Assignment

variable {s t : Assignment K} {key : Int} {x : Variable K}

/-- The part of a joint tangent vector that is orthogonal to the coordinates of a variable is
zero. -/
theorem part_eq_zeros [CommSemiring K] (hx : s.find key = .ok x) {y : Fin s.dimension → K}
    (hy : ∀ (p : Fin s.dimension) (l : Nat), s.labels[p.1]? = some (key, l) →
      y ⬝ᵥ Pi.single p 1 = 0) :
    s.part (List.ofFn y) key = List.replicate x.kind.dimension 0 := by
  have hlen := length_part hx (List.length_ofFn (f := y))
  refine List.eq_replicate_iff.2 ⟨hlen, fun c hc => ?_⟩
  obtain ⟨l, hl, rfl⟩ := List.mem_iff_getElem.1 hc
  obtain ⟨p, hp, hget⟩ := exists_label hx (hlen ▸ hl)
  rw [← List.getD_eq_getElem _ 0 hl, hget, ← hy p l hp, dotProduct_single_one]

/-- A coordinate of a variable lies apart from other keys. -/
theorem apart_single [Zero K] [Add K] (hs : s.keys.Nodup) {l : Nat} {p : Fin s.dimension}
    (hp : s.labels[p.1]? = some (key, l)) (h : K) {keys : List Int} (hkey : key ∉ keys) :
    s.Apart keys (Pi.single p h) := by
  intro key' hkey' y hy
  have hne : key' ≠ key := fun heq => hkey (heq ▸ hkey')
  rw [part_single hs hp h hy, if_neg hne]

end Assignment

/-! ## Runs -/

namespace Minimizer

variable [Field K] [LinearOrder K] [IsStrictOrderedRing K] [Elementary K] {settings : Settings K}
  {fs : List (ResidualFactor K)} {s : Assignment K} {key : Int} {x : Variable K}

/-- An iteration finds a variable again that no factor refers to and that stays in place along
zero. -/
theorem Settings.Steps.find_eq {model : LinearModel K} {gradient : List K} {solution : Solution K}
    {moved : Assignment K} {newCost : K}
    (step : settings.Steps (.ofResiduals fs) s model gradient solution moved newCost)
    (hs : s.keys.Nodup) (hkey : key ∉ (Graph.ofResiduals fs).keys) (hx : s.find key = .ok x)
    (hrest : x.move (.ofList (List.replicate x.kind.dimension 0)) = .ok x) :
    moved.find key = .ok x := by
  obtain ⟨y, hy, horthogonal⟩ :=
    (Graph.ofResiduals_over step.linearize_eq).solve_orthogonal step.solve_eq
  have hpart : s.part (List.ofFn y) key = List.replicate x.kind.dimension 0 :=
    Assignment.part_eq_zeros hx fun p l hp =>
      horthogonal _ (Graph.ofResiduals_ignores step.linearize_eq
        (Assignment.apart_single hs hp 1 hkey))
  have hmove := step.move_eq
  rw [hy] at hmove
  obtain ⟨z, hz, hfind⟩ := Assignment.find_move hs List.length_ofFn hmove hx
  rw [hpart, hrest] at hz
  cases hz
  exact hfind

theorem Settings.Descends.find_eq {budget index : Nat} {cost : K} {out : Outcome K}
    (h : settings.Descends (.ofResiduals fs) budget index s cost out)
    (hs : s.keys.Nodup) (hkey : key ∉ (Graph.ofResiduals fs).keys) (hx : s.find key = .ok x)
    (hrest : x.move (.ofList (List.replicate x.kind.dimension 0)) = .ok x) :
    out.assignment.find key = .ok x := by
  induction h with
  | exhausted | flat | unbounded => exact hx
  | settled step => exact step.find_eq hs hkey hx hrest
  | onward step _ _ _ ih =>
    have hkeys := Assignment.keys_eq_of_shape (Assignment.shape_move step.move_eq)
    exact ih (hkeys ▸ hs) (step.find_eq hs hkey hx hrest)

/-- A run that gives an outcome leaves every variable alone that no factor refers to and that stays
in place along zero. -/
theorem Settings.minimize_find (hs : s.Reachable) (hkey : key ∉ (Graph.ofResiduals fs).keys)
    (hx : s.find key = .ok x)
    (hrest : x.move (.ofList (List.replicate x.kind.dimension 0)) = .ok x) {out : Outcome K}
    (hrun : settings.minimize (.ofResiduals fs) s = .ok out) :
    out.assignment.find key = .ok x := by
  obtain ⟨cost, -, hrun⟩ := bind_eq_ok.1 hrun
  split at hrun
  · cases hrun
    exact hx
  · split at hrun
    · cases hrun
      exact hx
    · exact (descend_eq_ok.1 hrun).find_eq hs.nodup_keys hkey hx hrest

/-- The displacement between two points of a line, with a point of the plane that no factor refers
to between them and another one behind them. -/
theorem Settings.minimize_find_between :
    let s : Assignment ℝ := ⟨[(1, ⟨.line, [0], rfl⟩), (4, ⟨.plane, [8, 9], rfl⟩),
      (2, ⟨.line, [5], rfl⟩), (7, ⟨.line, [3], rfl⟩)]⟩
    let ms : List (Measurement ℝ) := [.between "step" 1 2 [1] 3]
    let settings : Settings ℝ := ⟨4, 0, 0, 0, 0, ⟨0, 3, false⟩, false⟩
    let g : Graph ℝ := .ofResiduals (ms.map (·.toResidualFactor))
    s.Reachable ∧ 4 ∉ g.keys ∧ 7 ∉ g.keys ∧ ∃ out, settings.minimize g s = .ok out ∧
      out.assignment.find 4 = .ok ⟨.plane, [8, 9], rfl⟩ ∧
      out.assignment.find 7 = .ok ⟨.line, [3], rfl⟩ := by
  intro s ms settings g
  have hs : s.Reachable := .of_nodup (by decide)
  have hv : s.IsVector := by simp [s, Assignment.IsVector, Kind.line, Kind.plane, Kind.IsVector]
  have hms : ∀ m ∈ ms, ∃ r, m.residual.value s = .ok r ∧ r.data ≠ [] := by
    intro m hm
    rw [List.mem_singleton.1 hm]
    exact ⟨_, rfl, List.cons_ne_nil _ _⟩
  obtain ⟨out, hout⟩ : ∃ out, settings.minimize g s = .ok out :=
    exists_minimize ⟨hs.nodup_keys, hv, hms⟩ settings
  have hplane : s.find 4 = .ok ⟨.plane, [8, 9], rfl⟩ := rfl
  have hline : s.find 7 = .ok ⟨.line, [3], rfl⟩ := rfl
  have hplaneKey : 4 ∉ g.keys := by decide
  have hlineKey : 7 ∉ g.keys := by decide
  exact ⟨hs, hplaneKey, hlineKey, out, hout,
    minimize_find hs hplaneKey hplane (Variable.move_zeros (hv.kind_find hplane)) hout,
    minimize_find hs hlineKey hline (Variable.move_zeros (hv.kind_find hline)) hout⟩

end Minimizer

end LeastSquares
