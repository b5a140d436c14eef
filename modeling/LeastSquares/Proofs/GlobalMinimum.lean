import LeastSquares.Proofs.Descent
import LeastSquares.Proofs.LinearGraphs
import LeastSquares.Proofs.NormalEquations
import LeastSquares.Proofs.Termination

/-!
# Global minima of linear graphs

On a graph of measurements the method of Gauss and Newton finds a global minimum with its first
move, from wherever it begins. The linear model has the cost behind every motion for the squared
length of its residual (`Graph.linearize_ofMeasurements`), and the solver makes that least
(`LinearModel.Regular.solve_least`), so no motion from the start costs less than the first move
(`Graph.Attains`). What a motion from there on leads to, a motion from the start leads to as well,
so later moves cannot leave the minimum (`Minimizer.Settings.descend_attains`). Whatever the
settings are, no run on such a graph is refused (`Minimizer.Settings.exists_minimize`).
-/

open scoped Matrix

namespace LeastSquares

variable {K : Type}

section
variable [Field K] [LinearOrder K] [IsStrictOrderedRing K]

/-! ## The linear problem -/

/-- With a budget of at least the length of the unknown, and without a positive precision, the
solver makes the residual of a linear model least. -/
theorem LinearModel.Regular.solve_least {model : LinearModel K} (h : model.Regular) {n : Nat}
    (hn : model.matrix.columns ≤ n) {settings : LinearSettings K} (hp : settings.precision ≤ 0)
    (hbudget : (n : Int) ≤ settings.maxIterations) :
    ∃ (out : Solution K) (y : Fin n → K),
      settings.solve model.matrix (.sparse model.bias) (.ofList (List.replicate n 0)) = .ok out ∧
      out.last.x = List.ofFn y ∧
      ∀ z : Fin n → K, Dense.normSq (model.residual y) ≤ Dense.normSq (model.residual z) := by
  have hsolve := Over.solve_eq ⟨h, hn⟩ settings
  have hrank : (model.toMatrix n).rank ≤ settings.maxIterations.toNat :=
    (model.toMatrix n).rank_le_width.trans (by omega)
  obtain ⟨-, -, hnormal⟩ := Search.solve_stationary hp hrank model.toVector 0
  refine ⟨_, _, hsolve, rfl, fun z => ?_⟩
  rw [normSq_residual, normSq_residual]
  exact dotProduct_self_le_of_normal hnormal z

end

/-! ## Attained minima -/

section
variable [Ring K] [LE K] {g : Graph K} {s u : Assignment K} {e : List K}

/-- An assignment of no greater cost than any translation of another one. -/
def Graph.Attains (g : Graph K) (s u : Assignment K) : Prop :=
  ∃ least, g.cost u = .ok least ∧
    ∀ d : List K, d.length = s.dimension → ∃ c, g.cost (s.translate d) = .ok c ∧ least ≤ c

/-- What is least for a translation is least for the assignment itself. -/
theorem Graph.Attains.of_translate (he : e.length = s.dimension)
    (h : g.Attains (s.translate e) u) : g.Attains s u := by
  obtain ⟨least, hleast, hle⟩ := h
  refine ⟨least, hleast, fun d hd => ?_⟩
  have hlen : e.length = d.length := he.trans hd.symm
  have hrest : e.length = (Dense.sub d e).length := by simp [Dense.sub, hlen]
  obtain ⟨c, hc, hlec⟩ := hle (Dense.sub d e) (by
    rw [Assignment.dimension_translate, ← hrest, he])
  rw [Assignment.translate_translate s hrest, Dense.add_sub_cancel hlen] at hc
  exact ⟨c, hc, hlec⟩

/-- What is least for an assignment is least for its translations. -/
theorem Graph.Attains.translate (he : e.length = s.dimension) (h : g.Attains s u) :
    g.Attains (s.translate e) u := by
  obtain ⟨least, hleast, hle⟩ := h
  refine ⟨least, hleast, fun d hd => ?_⟩
  have hlen : e.length = d.length := by rw [he, hd, Assignment.dimension_translate]
  rw [Assignment.translate_translate s hlen]
  exact hle _ (by simp [Dense.add, ← hlen, he])

end

/-! ## Moves -/

section
variable [Field K] [LinearOrder K] [IsStrictOrderedRing K] [Elementary K] [LawfulNorm K]
  {ms : List (Measurement K)} {s : Assignment K}

namespace Minimizer.Settings

variable {settings : Settings K}

/-- The first move from an assignment that measurements evaluate at finds a global minimum, and a
run either ends there or goes on from there. -/
theorem descend_succ (h : Measurement.Evaluate ms s) (hgradient : settings.gradientNorm ≤ 0)
    (hprecision : settings.linear.precision ≤ 0)
    (hbudget : (s.dimension : Int) ≤ settings.linear.maxIterations) :
    ∃ (step : List K) (least : K), step.length = s.dimension ∧
      (Graph.ofMeasurements ms).cost (s.translate step) = .ok least ∧
      (Graph.ofMeasurements ms).Attains s (s.translate step) ∧
      ∀ (budget index : Nat) (c : K), ∃ move : Move K,
        settings.descend (.ofMeasurements ms) (.fresh settings.linear) (budget + 1) index s c =
          if settings.settles (c - least) c (Elementary.norm step) then
            .ok ⟨s.translate step, .settled, [move]⟩
          else
            settings.descend (.ofMeasurements ms) (.fresh settings.linear) budget (index + 1)
                (s.translate step) least >>=
              fun rest => .ok ⟨rest.assignment, rest.ending, move :: rest.trace⟩ := by
  obtain ⟨model, hmodel, hregular, hcolumns, hcost⟩ := Graph.exists_model_cost h
  obtain ⟨out, y, hsolve, hout, hle⟩ := hregular.solve_least hcolumns hprecision hbudget
  have hadjoint := hregular.matrix.adjoint_of_resolve (Operand.resolve_sparse hregular.bias)
    (by rw [List.length_ofFn]; omega)
  have hlen : (List.ofFn y).length = s.dimension := List.length_ofFn
  have hleast := hcost _ hlen
  rw [Dense.toVector_ofFn] at hleast
  refine ⟨List.ofFn y, _, hlen, hleast, ⟨_, hleast, fun d hd => ⟨_, hcost d hd, hle _⟩⟩,
    fun budget index c => ?_⟩
  -- no length is below the tolerance of the gradient
  have hsteep : ∀ gradient : List K, ¬Elementary.norm gradient < settings.gradientNorm :=
    fun gradient => not_lt.2 (hgradient.trans (LawfulNorm.norm_nonneg gradient))
  simp only [descend_add_one, hmodel, hadjoint, hsolve, hout, Assignment.move_eq h.isVector hlen,
    hleast, if_neg (hsteep _), isFinite_eq_true, if_true, bind, Except.bind]
  exact ⟨_, rfl⟩

/-- A run that makes a move, or that begins at a global minimum, ends at a global minimum. -/
theorem descend_attains (h : Measurement.Evaluate ms s) (hgradient : settings.gradientNorm ≤ 0)
    (hprecision : settings.linear.precision ≤ 0)
    (hbudget : (s.dimension : Int) ≤ settings.linear.maxIterations) {budget : Nat}
    (hs : budget = 0 → (Graph.ofMeasurements ms).Attains s s) (index : Nat) (c : K) :
    ∃ out, settings.descend (.ofMeasurements ms) (.fresh settings.linear) budget index s c =
        .ok out ∧
      (Graph.ofMeasurements ms).Attains s out.assignment := by
  induction budget generalizing s index c with
  | zero => exact ⟨_, rfl, hs rfl⟩
  | succ budget ih =>
    obtain ⟨step, least, hlen, hleast, hattains, hdescend⟩ :=
      descend_succ h hgradient hprecision hbudget
    obtain ⟨move, hmove⟩ := hdescend budget index c
    rw [hmove]
    split
    · exact ⟨_, rfl, hattains⟩
    · obtain ⟨rest, hrest, hattains'⟩ := ih (h.translate hlen)
        (by rwa [Assignment.dimension_translate]) (fun _ => hattains.translate hlen) (index + 1)
        least
      exact ⟨_, bind_eq_ok.2 ⟨rest, hrest, rfl⟩, hattains'.of_translate hlen⟩

omit [IsStrictOrderedRing K] [LawfulNorm K] in
/-- From an assignment that measurements evaluate at, every budget gives an outcome, whatever the
settings are. -/
theorem exists_descend (h : Measurement.Evaluate ms s) (settings : Settings K) (budget index : Nat)
    (c : K) : ∃ out,
      settings.descend (.ofMeasurements ms) (.fresh settings.linear) budget index s c =
        .ok out := by
  induction budget generalizing s index c with
  | zero => exact ⟨_, rfl⟩
  | succ budget ih =>
    obtain ⟨model, hmodel, hregular, -, hcolumns, -⟩ := Graph.linearize_ofMeasurements h
    have hover : model.Over s.dimension := ⟨hregular, hcolumns⟩
    obtain ⟨gradient, hgradient, -⟩ := hover.adjoint_eq
    obtain ⟨solution, hsolve, hlen⟩ : ∃ solution, settings.linear.solve model.matrix
        (.sparse model.bias) (.ofList (List.replicate s.dimension 0)) = .ok solution ∧
        solution.last.x.length = s.dimension := ⟨_, hover.solve_eq _, List.length_ofFn⟩
    have hmove := Assignment.move_eq h.isVector hlen
    obtain ⟨newCost, hcost⟩ := (h.translate hlen).exists_cost
    by_cases hsmall : Elementary.norm gradient < settings.gradientNorm
    · exact ⟨_, descend_eq_ok.2 (.flat hmodel hgradient hsmall)⟩
    · have hstep : settings.Steps (.ofMeasurements ms) s model gradient solution _ newCost :=
        ⟨hmodel, hgradient, hsmall, hsolve, hmove, hcost⟩
      have hfinite := isFinite_eq_true newCost
      by_cases hsettles :
          settings.settles (c - newCost) c (Elementary.norm solution.last.x) = true
      · exact ⟨_, descend_eq_ok.2 (.settled hstep hfinite hsettles)⟩
      · obtain ⟨rest, hrest⟩ := ih (h.translate hlen) (index + 1) newCost
        exact ⟨_, descend_eq_ok.2 (.onward hstep hfinite hsettles (descend_eq_ok.1 hrest))⟩

omit [IsStrictOrderedRing K] [LawfulNorm K] in
/-- A run on a graph of measurements gives an outcome from wherever they evaluate. -/
theorem exists_minimize (h : Measurement.Evaluate ms s) (settings : Settings K) :
    ∃ out, settings.minimize (.ofMeasurements ms) s = .ok out := by
  obtain ⟨c, hcost⟩ := h.exists_cost
  simp only [minimize, hcost, isFinite_eq_true, bind, Except.bind, Bool.not_true,
    Bool.false_eq_true, if_false]
  split
  · exact ⟨_, rfl⟩
  · exact exists_descend h settings _ 0 c

/-- A run on a graph of measurements that makes a move ends at an assignment of no greater cost than
any motion from the start leads to. -/
theorem minimize_globalMinimum (hs : s.Reachable) (hv : s.IsVector)
    (hms : ∀ m ∈ ms, ∃ r, m.residual.value s = .ok r ∧ r.data ≠ [])
    (hmoves : 1 ≤ settings.maxIterations) (hgradient : settings.gradientNorm ≤ 0)
    (hprecision : settings.linear.precision ≤ 0)
    (hbudget : (s.dimension : Int) ≤ settings.linear.maxIterations) :
    ∃ (out : Outcome K) (least : K),
      settings.minimize (.ofMeasurements ms) s = .ok out ∧
      (Graph.ofMeasurements ms).cost out.assignment = .ok least ∧
      ∀ d : List K, d.length = s.dimension → ∃ (t : Assignment K) (c : K),
        s.move (.ofList d) = .ok t ∧ (Graph.ofMeasurements ms).cost t = .ok c ∧ least ≤ c := by
  have h : Measurement.Evaluate ms s := ⟨hs.nodup_keys, hv, hms⟩
  obtain ⟨c, hcost⟩ := h.exists_cost
  have hattains : ∃ out, settings.minimize (.ofMeasurements ms) s = .ok out ∧
      (Graph.ofMeasurements ms).Attains s out.assignment := by
    simp only [minimize, hcost, isFinite_eq_true, bind, Except.bind, Bool.not_true,
      Bool.false_eq_true, if_false]
    split
    · rename_i hdimension
      refine ⟨_, rfl, c, hcost, fun d hd => ⟨c, ?_, le_rfl⟩⟩
      rw [List.length_eq_zero_iff.1 (hd.trans hdimension), Assignment.translate_nil, hcost]
    · exact descend_attains h hgradient hprecision hbudget (by omega) 0 c
  obtain ⟨out, hout, least, hleast, hle⟩ := hattains
  refine ⟨out, least, hout, hleast, fun d hd => ?_⟩
  obtain ⟨c, hc, hlec⟩ := hle d hd
  exact ⟨_, c, Assignment.move_eq hv hd, hc, hlec⟩

end Minimizer.Settings

end

/-- Two points of a line of which only the displacement is measured. -/
theorem Minimizer.Settings.minimize_globalMinimum_displacement :
    let s : Assignment ℝ := ⟨[(1, ⟨.line, [0], rfl⟩), (2, ⟨.line, [5], rfl⟩)]⟩
    let ms : List (Measurement ℝ) := [.between "step" 1 2 [1] 3]
    let settings : Settings ℝ := ⟨1, 0, 0, 0, 0, ⟨0, 2, false⟩, false⟩
    s.Reachable ∧ s.IsVector ∧ (∀ m ∈ ms, ∃ r, m.residual.value s = .ok r ∧ r.data ≠ []) ∧
      1 ≤ settings.maxIterations ∧ settings.gradientNorm ≤ 0 ∧ settings.linear.precision ≤ 0 ∧
      (s.dimension : Int) ≤ settings.linear.maxIterations ∧
      ∃ (out : Outcome ℝ) (least : ℝ), settings.minimize (.ofMeasurements ms) s = .ok out ∧
        (Graph.ofMeasurements ms).cost out.assignment = .ok least ∧ least ≤ 0 := by
  intro s ms settings
  have hfirst : (.empty : Assignment ℝ).insert 1 ⟨.line, [0], rfl⟩ =
      .ok ⟨[(1, ⟨.line, [0], rfl⟩)]⟩ := rfl
  have hsecond : (⟨[(1, ⟨.line, [0], rfl⟩)]⟩ : Assignment ℝ).insert 2 ⟨.line, [5], rfl⟩ =
      .ok s := rfl
  have hs := Assignment.Reachable.empty.insert hfirst |>.insert hsecond
  have hv : s.IsVector := by simp [s, Assignment.IsVector, Kind.line, Kind.IsVector]
  have hms : ∀ m ∈ ms, ∃ r, m.residual.value s = .ok r ∧ r.data ≠ [] := by
    intro m hm
    rw [List.mem_singleton.1 hm]
    exact ⟨_, rfl, List.cons_ne_nil _ _⟩
  have hbudget : (s.dimension : Int) ≤ settings.linear.maxIterations := le_refl 2
  obtain ⟨out, least, hout, hleast, hle⟩ :=
    minimize_globalMinimum hs hv hms le_rfl le_rfl le_rfl hbudget
  -- the motion that makes the displacement the measured one costs nothing
  obtain ⟨t, c, ht, hc, hlec⟩ := hle [0, -4] rfl
  cases ht
  cases hc
  refine ⟨hs, hv, hms, le_rfl, le_rfl, le_rfl, hbudget, out, least, hout, hleast, hlec.trans ?_⟩
  change 0 + ((5 + -4 - (0 + 0) - 1) * 3 * ((5 + -4 - (0 + 0) - 1) * 3) + 0) ≤ (0 : ℝ)
  norm_num

end LeastSquares
