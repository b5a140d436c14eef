import LeastSquares.Proofs.Iterates
import LeastSquares.Proofs.JointAxes

/-!
# Runs that refuse nothing

Where a graph of residuals evaluates, the method of Gauss and Newton refuses nothing on its own
account, in any arithmetic. The linear model at an iterate is over the joint tangent space, so its
gradient and its least-squares solution exist, and the solution is a joint tangent vector, along
which an assignment of accepting kinds is moved (`Assignment.exists_move`). What an iteration
computes is stated by `Minimizer.Settings.Fits`: each length that is checked is the one that the
check asks for.

So a run reaches every iterate that it goes on from
(`Minimizer.Settings.GraphEvaluates.exists_iterate`), and it gives an outcome
(`Minimizer.Settings.exists_minimize_ofResiduals`).
-/

namespace LeastSquares

variable {α : Type}

namespace Minimizer.Settings

variable [Zero α] [Add α] [Sub α] [Mul α] [Div α] [LT α] [DecidableLT α] [BEq α] [Elementary α]

/-! ## Iterations -/

/-- What an iteration computes at an assignment. The linear model has no more columns than the joint
tangent space has dimensions and no more rows than its bias has entries, the solution is a joint
tangent vector to which no step divides by zero, and every variable is moved along a part of it that
is as long as its own tangent space. -/
structure Fits (settings : Settings α) (g : Graph α) (v : Assignment α) (model : LinearModel α)
    (gradient bias : List α) (first : Iterate α) (solution : Solution α) (moved : Assignment α) :
    Prop where
  linearize_eq : g.linearize v = .ok model
  columns_le : model.matrix.columns ≤ v.dimension
  rows_le : model.matrix.rows ≤ model.bias.dimension
  adjoint_eq : model.matrix.adjoint (.sparse model.bias) = .ok gradient
  dense_eq : model.bias.dense model.bias.dimension = .ok bias
  start_eq : (⟨model.matrix, bias.length, v.dimension⟩ : LinearSystem α).start (.ofList bias)
    (.ofList (List.replicate v.dimension 0)) = .ok first
  solve_eq : settings.linear.solve model.matrix (.sparse model.bias)
    (.ofList (List.replicate v.dimension 0)) = .ok solution
  divides : (⟨model.matrix, bias.length, v.dimension⟩ : LinearSystem α).Divides first
    solution.trace
  length_step : solution.last.x.length = v.dimension
  move_eq : v.move (.ofList solution.last.x) = .ok moved
  parts : ∀ {key x}, v.find key = .ok x →
    (v.part solution.last.x key).length = x.kind.dimension ∧
      ∃ y, x.move (.ofList (v.part solution.last.x key)) = .ok y ∧ moved.find key = .ok y

variable {settings : Settings α}

/-- An iteration leads to the next iterate. -/
theorem Fits.iterate_eq {g : Graph α} {s v moved : Assignment α} {model : LinearModel α}
    {gradient bias : List α} {first : Iterate α} {solution : Solution α} {k : Nat}
    (h : settings.Fits g v model gradient bias first solution moved)
    (hv : settings.iterate g s k = .ok v) : settings.iterate g s (k + 1) = .ok moved :=
  iterate_succ_eq_ok.2
    ⟨v, _, hv, delta_eq_ok.2 ⟨model, solution, h.linearize_eq, h.solve_eq, rfl⟩, h.move_eq⟩

variable [One α] [Neg α] {fs : List (ResidualFactor α)}

/-- Where a graph of residuals has a linear model, an iteration refuses nothing. -/
theorem exists_fits {v : Assignment α} (hv : v.keys.Nodup) (haccepting : v.Accepting)
    {model : LinearModel α} (hmodel : (Graph.ofResiduals fs).linearize v = .ok model) :
    ∃ gradient bias first solution moved,
      settings.Fits (.ofResiduals fs) v model gradient bias first solution moved := by
  have hover := Graph.ofResiduals_over hmodel
  obtain ⟨gradient, hgradient⟩ := hover.exists_adjoint
  obtain ⟨bias, first, solution, hbias, hfirst, hsolution, hlen, hdivides⟩ :=
    hover.exists_solution settings.linear
  obtain ⟨moved, hmoved⟩ := Assignment.exists_move haccepting hlen
  exact ⟨gradient, bias, first, solution, moved, hmodel, hover.columns_le, hover.regular.rows_le,
    hgradient, hbias, hfirst, hsolution, hdivides, hlen, hmoved, fun hx =>
      ⟨Assignment.length_part hx hlen, Assignment.find_move hv hlen hmoved hx⟩⟩

/-! ## Runs -/

variable [OfScientific α] {s : Assignment α} {k : Nat}

/-- A graph evaluates at every assignment that a run asks it for: its cost at the start, its linear
model at the iterates that the run goes on from and, where the gradient there is not small, its cost
at the next iterate. -/
structure GraphEvaluates (settings : Settings α) (g : Graph α) (s : Assignment α) : Prop where
  cost_eq : ∃ cost, g.cost s = .ok cost
  linearize_eq : ∀ {k v}, settings.Enters g s k → settings.iterate g s k = .ok v →
    ∃ model, g.linearize v = .ok model
  next_cost_eq : ∀ {k v}, settings.Enters g s k → ¬settings.Flat g s k →
    settings.iterate g s (k + 1) = .ok v → ∃ cost, g.cost v = .ok cost

omit [One α] in
/-- Where a run refuses nothing, the graph evaluates. -/
theorem Evaluates.graphEvaluates {g : Graph α} (h : settings.Evaluates g s) :
    settings.GraphEvaluates g s where
  cost_eq := h.cost_eq
  linearize_eq {k v} henters hv := by
    obtain ⟨u, slope, hu, hslope⟩ := (h.evaluatesAt k henters).slope_eq
    obtain rfl := Except.ok.inj (hv.symm.trans hu)
    obtain ⟨model, -, hmodel, -, -⟩ := Graph.slope_eq_ok.1 hslope
    exact ⟨model, hmodel⟩
  next_cost_eq {k v} henters hsteep hv := by
    obtain ⟨u, cost, hu, hcost⟩ := (h.evaluatesAt k henters).next_eq hsteep
    obtain rfl := Except.ok.inj (hv.symm.trans hu)
    exact ⟨cost, hcost⟩

omit [One α] in
/-- A run that goes on from an iterate went on from the one before it. -/
theorem Enters.of_succ {g : Graph α} (h : settings.Enters g s (k + 1)) :
    settings.Enters g s k where
  finite := h.finite
  dimension_ne := h.dimension_ne
  before i hi := h.before i (Nat.lt_succ_of_lt hi)
  left hk := h.before k (Nat.lt_succ_self k) (.inl hk)
  unsettled hsettled := h.before k (Nat.lt_succ_self k) (.inr (.inr (.inr hsettled)))

/-- Where the graph evaluates, an iteration from an iterate refuses nothing. -/
theorem GraphEvaluates.exists_fits_iterate (h : settings.GraphEvaluates (.ofResiduals fs) s)
    (hs : s.keys.Nodup) (haccepting : s.Accepting)
    (henters : settings.Enters (.ofResiduals fs) s k) {v : Assignment α}
    (hv : settings.iterate (.ofResiduals fs) s k = .ok v) :
    ∃ model gradient bias first solution moved,
      settings.Fits (.ofResiduals fs) v model gradient bias first solution moved := by
  obtain ⟨model, hmodel⟩ := h.linearize_eq henters hv
  have hshape := shape_iterate hv
  have hkeys := Assignment.keys_eq_of_shape hshape
  exact ⟨model, exists_fits (hkeys ▸ hs) (haccepting.of_shape hshape) hmodel⟩

/-- Where the graph evaluates, a run reaches every iterate that it goes on from. -/
theorem GraphEvaluates.exists_iterate (h : settings.GraphEvaluates (.ofResiduals fs) s)
    (hs : s.keys.Nodup) (haccepting : s.Accepting)
    (henters : settings.Enters (.ofResiduals fs) s k) :
    ∃ v, settings.iterate (.ofResiduals fs) s k = .ok v := by
  induction k with
  | zero => exact ⟨s, rfl⟩
  | succ k ih =>
    have hbefore := henters.of_succ
    obtain ⟨v, hv⟩ := ih hbefore
    obtain ⟨model, gradient, bias, first, solution, moved, hfits⟩ :=
      h.exists_fits_iterate hs haccepting hbefore hv
    exact ⟨moved, hfits.iterate_eq hv⟩

/-- Where the graph evaluates, a run refuses nothing. -/
theorem GraphEvaluates.evaluates (h : settings.GraphEvaluates (.ofResiduals fs) s)
    (hs : s.keys.Nodup) (haccepting : s.Accepting) : settings.Evaluates (.ofResiduals fs) s where
  cost_eq := h.cost_eq
  evaluatesAt k henters := by
    obtain ⟨v, hv⟩ := h.exists_iterate hs haccepting henters
    obtain ⟨model, gradient, bias, first, solution, moved, hfits⟩ :=
      h.exists_fits_iterate hs haccepting henters hv
    refine ⟨⟨v, _, hv, Graph.slope_eq_ok.2
      ⟨model, gradient, hfits.linearize_eq, hfits.adjoint_eq, rfl⟩⟩, fun hsteep => ?_⟩
    have hnext := hfits.iterate_eq hv
    obtain ⟨cost, hcost⟩ := h.next_cost_eq henters hsteep hnext
    exact ⟨moved, cost, hnext, hcost⟩

/-- Where a graph of residuals evaluates at every assignment that it is asked for, a run on
variables of accepting kinds gives an outcome. At each iterate that the run goes on from, every
length that is checked is the one that the check asks for, and no division of the linear solver is
by zero. -/
theorem exists_minimize_ofResiduals (hs : s.Reachable) (haccepting : s.Accepting)
    (h : settings.GraphEvaluates (.ofResiduals fs) s) :
    (∃ out, settings.minimize (.ofResiduals fs) s = .ok out) ∧
      ∀ k, settings.Enters (.ofResiduals fs) s k →
        ∃ v model gradient bias first solution moved,
          settings.iterate (.ofResiduals fs) s k = .ok v ∧
          settings.iterate (.ofResiduals fs) s (k + 1) = .ok moved ∧
          settings.Fits (.ofResiduals fs) v model gradient bias first solution moved := by
  have hnodup := hs.nodup_keys
  refine ⟨exists_minimize_iff.2 (h.evaluates hnodup haccepting), fun k henters => ?_⟩
  obtain ⟨v, hv⟩ := h.exists_iterate hnodup haccepting henters
  obtain ⟨model, gradient, bias, first, solution, moved, hfits⟩ :=
    h.exists_fits_iterate hnodup haccepting henters hv
  exact ⟨v, model, gradient, bias, first, solution, moved, hv, hfits.iterate_eq hv, hfits⟩

end Minimizer.Settings

/-- The displacement between two points of a line, with a point without coordinates between them and
a point of the plane that no factor refers to behind them. -/
theorem Minimizer.Settings.exists_minimize_ofResiduals_displacement :
    let s : Assignment ℝ := ⟨[(1, ⟨.line, [0], rfl⟩), (5, ⟨.vector "Vector0" 0, [], rfl⟩),
      (2, ⟨.line, [5], rfl⟩), (4, ⟨.plane, [8, 9], rfl⟩)]⟩
    let ms : List (Measurement ℝ) := [.between "step" 1 2 [1] 3]
    let settings : Settings ℝ := ⟨4, 0, 0, 0, 0, ⟨0, 3, false⟩, false⟩
    let g : Graph ℝ := .ofResiduals (ms.map (·.toResidualFactor))
    s.Reachable ∧ s.Accepting ∧ settings.GraphEvaluates g s ∧ settings.Enters g s 0 ∧
      ∃ (out : Outcome ℝ) (model : LinearModel ℝ) (gradient bias : List ℝ) (first : Iterate ℝ)
        (solution : Solution ℝ) (moved : Assignment ℝ), settings.minimize g s = .ok out ∧
        settings.Fits g s model gradient bias first solution moved ∧
        solution.last.x.length = 4 := by
  intro s ms settings g
  have hs : s.Reachable := .of_nodup (by decide)
  have hv : s.IsVector := by simp [s, Assignment.IsVector, Kind.line, Kind.plane, Kind.IsVector]
  have hms : ∀ m ∈ ms, ∃ r, m.residual.value s = .ok r ∧ r.data ≠ [] := by
    intro m hm
    rw [List.mem_singleton.1 hm]
    exact ⟨_, rfl, List.cons_ne_nil _ _⟩
  have hevaluate : Measurement.Evaluate ms s := ⟨hs.nodup_keys, hv, hms⟩
  have hevaluates : settings.GraphEvaluates g s := (hevaluate.evaluates settings).graphEvaluates
  obtain ⟨cost, hcost⟩ : ∃ cost, g.cost s = .ok cost := hevaluate.exists_cost
  have henters : settings.Enters g s 0 :=
    (Carries.start hcost (isFinite_eq_true cost) (by decide)).enters (by decide)
  obtain ⟨⟨out, hout⟩, hfits⟩ := exists_minimize_ofResiduals hs hv.accepting hevaluates
  obtain ⟨v, model, gradient, bias, first, solution, moved, hiterate, -, hfits⟩ := hfits 0 henters
  cases hiterate
  exact ⟨hs, hv.accepting, hevaluates, henters, out, model, gradient, bias, first, solution, moved,
    hout, hfits, hfits.length_step⟩

end LeastSquares
