import LeastSquares.Proofs.GlobalMinimum
import LeastSquares.Proofs.Krylov

/-!
# Costs along a run

On a graph of measurements no move of the method of Gauss and Newton raises the cost, wherever the
linear solver stopped. Each iterate of the solver has the shortest residual of all points that its
Krylov space leads to, among them the start, which is zero (`LinearModel.Over.solve_le`). The linear
model has the costs behind all motions for the squared lengths of its residuals, so the motion along
the iterate costs no more than to stay (`Minimizer.Settings.Steps.cost_le`). A run is composed of
such moves (`Minimizer.Settings.Descends.descending`), so it ends where the cost is no greater than
at its start (`Minimizer.Settings.minimize_nonincreasing`).
-/

namespace LeastSquares

variable {K : Type} [Field K] [LinearOrder K] [IsStrictOrderedRing K]

/-- Wherever the solver stops, it makes the residual of a linear model no longer than zero does. -/
theorem LinearModel.Over.solve_le {model : LinearModel K} {n : Nat} (h : model.Over n)
    (settings : LinearSettings K) :
    ∃ (out : Solution K) (y : Fin n → K),
      settings.solve model.matrix (.sparse model.bias) (.ofList (List.replicate n 0)) = .ok out ∧
      out.last.x = List.ofFn y ∧
      Dense.normSq (model.residual y) ≤ Dense.normSq (model.residual (0 : Fin n → K)) := by
  obtain ⟨steps, -, hlast, -, hgamma⟩ := Search.solve_eq_after (model.toMatrix n)
    settings.precision settings.maxIterations.toNat model.toVector 0
  -- the Krylov space leads from zero to zero
  have hleast := (Search.after_optimal hgamma).least 0 (by
    rw [sub_self]
    exact zero_mem _)
  refine ⟨_, _, h.solve_eq settings, rfl, ?_⟩
  rwa [normSq_residual, normSq_residual, hlast]

variable [Elementary K] {ms : List (Measurement K)} {s : Assignment K}

namespace Minimizer.Settings

variable {settings : Settings K}

/-- An iteration on a graph of measurements leads to an assignment that they evaluate at, and where
the cost is no greater. -/
theorem Steps.cost_le {model : LinearModel K} {gradient : List K} {solution : Solution K}
    {moved : Assignment K} {cost newCost : K} (h : Measurement.Evaluate ms s)
    (hcost : (Graph.ofMeasurements ms).cost s = .ok cost)
    (step : settings.Steps (.ofMeasurements ms) s model gradient solution moved newCost) :
    Measurement.Evaluate ms moved ∧ newCost ≤ cost := by
  obtain ⟨model', hmodel, hregular, hcolumns, hpredicts⟩ := Graph.exists_model_cost h
  obtain rfl : model = model' := Except.ok.inj (step.linearize_eq.symm.trans hmodel)
  have hover : model.Over s.dimension := ⟨hregular, hcolumns⟩
  obtain ⟨out, y, hsolve, hout, hle⟩ := hover.solve_le settings.linear
  obtain rfl : solution = out := Except.ok.inj (step.solve_eq.symm.trans hsolve)
  have hlen : (List.ofFn y).length = s.dimension := List.length_ofFn
  have hmove := step.move_eq
  rw [hout, Assignment.move_eq h.isVector hlen] at hmove
  obtain rfl : s.translate (List.ofFn y) = moved := Except.ok.inj hmove
  refine ⟨h.translate hlen, ?_⟩
  have hstay := hpredicts (List.replicate s.dimension 0) List.length_replicate
  have hmoved := hpredicts (List.ofFn y) hlen
  rw [Assignment.translate_zeros, replicate_eq_ofFn, Dense.toVector_ofFn, hcost] at hstay
  rw [Dense.toVector_ofFn, step.cost_eq] at hmoved
  rwa [Except.ok.inj hstay, Except.ok.inj hmoved]

end Minimizer.Settings

namespace Minimizer

/-- What holds of a run from an assignment `s`: its trace has the costs of the assignments that it
passes, they do not rise, and it ends at the last one. -/
structure Outcome.Descending (g : Graph K) (s : Assignment K) (start : K) (out : Outcome K) :
    Prop where
  cost_eq : ∀ move ∈ out.trace, g.cost move.assignment = .ok move.cost
  falls : List.IsChain (· ≥ ·) (start :: out.trace.map (·.cost))
  assignment_eq : out.assignment = (out.trace.map (·.assignment)).getLastD s

variable {settings : Settings K} {out : Outcome K} {g : Graph K} {start : K}

omit [IsStrictOrderedRing K] [Elementary K] in
/-- A run without moves ends where it began. -/
theorem Outcome.Descending.stay (s : Assignment K) (start : K) (ending : Ending K) :
    Descending g s start ⟨s, ending, []⟩ where
  cost_eq := by simp
  falls := List.isChain_singleton _
  assignment_eq := rfl

omit [IsStrictOrderedRing K] in
/-- A move to where the cost is no greater, before a run from there. -/
theorem Outcome.Descending.move {moved : Assignment K} {newCost : K}
    (h : out.Descending g moved newCost) (hcost : g.cost moved = .ok newCost)
    (hle : newCost ≤ start) (index : Nat) (gradient : List K) (solution : Solution K) :
    Descending g s start ⟨out.assignment, out.ending,
      moveOf index start gradient solution moved newCost :: out.trace⟩ where
  cost_eq := List.forall_mem_cons.2 ⟨hcost, h.cost_eq⟩
  falls := List.isChain_cons_cons.2 ⟨hle, h.falls⟩
  assignment_eq := by
    rw [h.assignment_eq, List.map_cons, List.getLastD_cons]
    rfl

omit [IsStrictOrderedRing K] [Elementary K] in
/-- The end of a run costs no more than its start. -/
theorem Outcome.Descending.cost_le (h : out.Descending g s start) (hstart : g.cost s = .ok start) :
    ∃ last, g.cost out.assignment = .ok last ∧ last ≤ start := by
  have hall := (List.pairwise_cons.1 (List.isChain_iff_pairwise.1 h.falls)).1
  rw [h.assignment_eq]
  rcases List.eq_nil_or_concat out.trace with hnil | ⟨moves, move, hmoves⟩
  · rw [hnil]
    exact ⟨start, hstart, le_rfl⟩
  · have hmem : move ∈ out.trace := by simp [hmoves]
    refine ⟨move.cost, ?_, hall _ (List.mem_map_of_mem hmem)⟩
    rw [hmoves, List.map_concat, List.concat_eq_append, List.getLastD_concat]
    exact h.cost_eq move hmem

/-- A run on a graph of measurements never raises the cost: no move of it does. -/
theorem Settings.Descends.descending {budget index : Nat} {cost : K}
    (hrun : settings.Descends (.ofMeasurements ms) budget index s cost out)
    (h : Measurement.Evaluate ms s) (hcost : (Graph.ofMeasurements ms).cost s = .ok cost) :
    out.Descending (.ofMeasurements ms) s cost := by
  induction hrun with
  | exhausted | flat | unbounded => exact .stay ..
  | @settled _ _ _ _ _ _ _ moved newCost step =>
    obtain ⟨-, hle⟩ := step.cost_le h hcost
    exact (Outcome.Descending.stay moved newCost .settled).move step.cost_eq hle ..
  | onward step _ _ _ ih =>
    obtain ⟨hmoved, hle⟩ := step.cost_le h hcost
    exact (ih hmoved step.cost_eq).move step.cost_eq hle ..

/-- Whatever the settings are, a run on a graph of measurements passes assignments of costs that do
not rise, and ends where the cost is no greater than at its start. -/
theorem Settings.minimize_nonincreasing (hs : s.Reachable) (hv : s.IsVector)
    (hms : ∀ m ∈ ms, ∃ r, m.residual.value s = .ok r ∧ r.data ≠ []) (settings : Settings K) :
    ∃ (out : Outcome K) (start last : K), settings.minimize (.ofMeasurements ms) s = .ok out ∧
      (Graph.ofMeasurements ms).cost s = .ok start ∧
      out.Descending (.ofMeasurements ms) s start ∧
      (Graph.ofMeasurements ms).cost out.assignment = .ok last ∧ last ≤ start := by
  have h : Measurement.Evaluate ms s := ⟨hs.nodup_keys, hv, hms⟩
  obtain ⟨start, hstart⟩ := h.exists_cost
  obtain ⟨out, hout⟩ := exists_minimize h settings
  have hdescending : out.Descending (.ofMeasurements ms) s start := by
    have hrun := hout
    simp only [minimize, hstart, isFinite_eq_true, bind, Except.bind, Bool.not_true,
      Bool.false_eq_true, if_false] at hrun
    split at hrun
    · cases hrun
      exact .stay ..
    · exact (descend_eq_ok.1 hrun).descending h hstart
  obtain ⟨last, hlast, hle⟩ := hdescending.cost_le hstart
  exact ⟨out, start, last, hout, hstart, hdescending, hlast, hle⟩

/-- A pinned point of a line and the displacement of another one, with one step for each linear
problem. -/
theorem Settings.minimize_nonincreasing_truncated :
    let s : Assignment ℝ := ⟨[(1, ⟨.line, [0], rfl⟩), (2, ⟨.line, [5], rfl⟩)]⟩
    let ms : List (Measurement ℝ) :=
      [.prior "pin" 1 ⟨.line, [1], rfl⟩ 2, .between "step" 1 2 [1] 3]
    let settings : Settings ℝ := ⟨2, 0, 0, 0, 0, ⟨1 / 8, 1, false⟩, false⟩
    s.Reachable ∧ s.IsVector ∧ (∀ m ∈ ms, ∃ r, m.residual.value s = .ok r ∧ r.data ≠ []) ∧
      ∃ (out : Outcome ℝ) (last : ℝ), settings.minimize (.ofMeasurements ms) s = .ok out ∧
        (Graph.ofMeasurements ms).cost out.assignment = .ok last ∧ last ≤ 148 := by
  intro s ms settings
  have hs : s.Reachable := .of_nodup (by decide)
  have hv : s.IsVector := by simp [s, Assignment.IsVector, Kind.line, Kind.IsVector]
  have hms : ∀ m ∈ ms, ∃ r, m.residual.value s = .ok r ∧ r.data ≠ [] := by
    intro m hm
    rcases List.mem_cons.1 hm with rfl | hm
    · exact ⟨_, rfl, List.cons_ne_nil _ _⟩
    · rw [List.mem_singleton.1 hm]
      exact ⟨_, rfl, List.cons_ne_nil _ _⟩
  obtain ⟨out, start, last, hout, hstart, -, hlast, hle⟩ :=
    minimize_nonincreasing hs hv hms settings
  refine ⟨hs, hv, hms, out, last, hout, hlast, hle.trans (le_of_eq ?_)⟩
  cases hstart
  change 0 + ((0 - 1) * 2 * ((0 - 1) * 2) + 0) +
    ((5 - 0 - 1) * 3 * ((5 - 0 - 1) * 3) + 0) = (148 : ℝ)
  norm_num

end Minimizer

end LeastSquares
