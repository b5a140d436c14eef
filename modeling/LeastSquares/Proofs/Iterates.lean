import LeastSquares.Proofs.Descent
import LeastSquares.Proofs.LinearGraphs
import LeastSquares.Proofs.NormalEquations
import LeastSquares.Proofs.Shapes

/-!
# The iterates of the method of Gauss and Newton

From an assignment the method leads through a sequence of iterates: each is the one before it, moved
along the solution of its linear model (`Minimizer.Settings.iterate`). Whether the sequence is to
end at an iterate is said by four tests (`Minimizer.Settings.Stops`). A run evaluates them on the
way, in the order in which their parts are known, and answers the first iterate at which one of them
holds (`Minimizer.Settings.minimize_iterate`). What it carries along is the invariant of the loop
(`Minimizer.Settings.Carries`): the cost belongs to the iterate, and no test held before.

Measurements evaluate at every iterate (`Measurement.Evaluate.exists_iterate`).
-/

namespace LeastSquares

variable {α : Type}

namespace Graph

variable [Zero α] [Add α] [Mul α] [Elementary α] {g : Graph α} {s : Assignment α}

/-- The length of the gradient at an assignment. -/
def slope (g : Graph α) (s : Assignment α) : Except Error α := do
  let model ← g.linearize s
  let gradient ← model.matrix.adjoint (.sparse model.bias)
  .ok (Elementary.norm gradient)

theorem slope_eq_ok {length : α} : g.slope s = .ok length ↔
    ∃ model gradient, g.linearize s = .ok model ∧
      model.matrix.adjoint (.sparse model.bias) = .ok gradient ∧
      Elementary.norm gradient = length := by
  rw [slope, bind_eq_ok]
  refine exists_congr fun model => ?_
  rw [bind_eq_ok]
  constructor
  · rintro ⟨hmodel, gradient, hgradient, hnorm⟩
    exact ⟨gradient, hmodel, hgradient, Except.ok.inj hnorm⟩
  · rintro ⟨gradient, hmodel, hgradient, hnorm⟩
    exact ⟨hmodel, gradient, hgradient, congrArg Except.ok hnorm⟩

end Graph

namespace Minimizer.Settings

variable [Zero α] [Add α] [Sub α] [Neg α] [Mul α] [Div α] [LT α] [DecidableLT α] [BEq α]
  [OfScientific α] [Elementary α]

section
variable (settings : Settings α) (g : Graph α) (s : Assignment α)

/-- The tangent vector that a new solver finds at an assignment, from zero. -/
def delta : Except Error (List α) := do
  let model ← g.linearize s
  let (solution, _) := (LinearSolver.fresh settings.linear).solve model.matrix (.sparse model.bias)
    (.ofList (List.replicate s.dimension 0))
  solution.map (·.last.x)

/-- The assignment behind a number of moves. -/
def iterate : Nat → Except Error (Assignment α)
  | 0 => .ok s
  | k + 1 => do
    let v ← iterate k
    let d ← settings.delta g v
    v.move (.ofList d)

/-- The gradient at an iterate is small. -/
def Flat (k : Nat) : Prop :=
  ∃ v slope, settings.iterate g s k = .ok v ∧ g.slope v = .ok slope ∧ slope < settings.gradientNorm

/-- The cost of the iterate behind this one is not finite. -/
def Unbounded (k : Nat) : Prop :=
  ∃ v cost, settings.iterate g s (k + 1) = .ok v ∧ g.cost v = .ok cost ∧ ¬isFinite cost = true

/-- The move to an iterate changed neither the cost nor the assignment beyond tolerance. -/
def Settled : Nat → Prop
  | 0 => False
  | k + 1 => ∃ u v d cost newCost, settings.iterate g s k = .ok u ∧ settings.delta g u = .ok d ∧
      settings.iterate g s (k + 1) = .ok v ∧ g.cost u = .ok cost ∧ g.cost v = .ok newCost ∧
      settings.settles (cost - newCost) cost (Elementary.norm d) = true

/-- The tests for an end at an iterate. -/
def Stops (k : Nat) : Prop :=
  k = settings.maxIterations.toNat ∨ settings.Flat g s k ∨ settings.Unbounded g s k ∨
    settings.Settled g s k

/-- A run goes on from an iterate to look at its gradient: there is something to move from a finite
cost, no test held before, and those that need no evaluation do not hold. -/
structure Enters (k : Nat) : Prop where
  finite : ∃ cost, g.cost s = .ok cost ∧ isFinite cost = true
  dimension_ne : s.dimension ≠ 0
  before : ∀ i < k, ¬settings.Stops g s i
  left : k ≠ settings.maxIterations.toNat
  unsettled : ¬settings.Settled g s k

/-- What is evaluated at an iterate is not refused: the gradient there and, unless that is small,
the next iterate with its cost. -/
structure EvaluatesAt (k : Nat) : Prop where
  slope_eq : ∃ v slope, settings.iterate g s k = .ok v ∧ g.slope v = .ok slope
  next_eq : ¬settings.Flat g s k →
    ∃ v cost, settings.iterate g s (k + 1) = .ok v ∧ g.cost v = .ok cost

/-- What a run evaluates is not refused, at the start and at every iterate that it goes on from. -/
structure Evaluates : Prop where
  cost_eq : ∃ cost, g.cost s = .ok cost
  evaluatesAt : ∀ k, settings.Enters g s k → settings.EvaluatesAt g s k

end

variable {settings : Settings α} {g : Graph α} {s : Assignment α}

omit [Neg α] [OfScientific α] in
theorem iterate_succ_eq_ok {k : Nat} {v : Assignment α} :
    settings.iterate g s (k + 1) = .ok v ↔
      ∃ u d, settings.iterate g s k = .ok u ∧ settings.delta g u = .ok d ∧
        u.move (.ofList d) = .ok v := by
  rw [iterate, bind_eq_ok]
  refine exists_congr fun u => ?_
  rw [bind_eq_ok]
  exact ⟨fun ⟨hu, d, hd, hv⟩ => ⟨d, hu, hd, hv⟩, fun ⟨d, hu, hd, hv⟩ => ⟨hu, d, hd, hv⟩⟩

omit [Neg α] [OfScientific α] in
/-- Iterates keep the shape of the assignment they begin at. -/
theorem shape_iterate {k : Nat} {v : Assignment α} (h : settings.iterate g s k = .ok v) :
    v.shape = s.shape := by
  induction k generalizing v with
  | zero =>
    cases h
    rfl
  | succ k ih =>
    obtain ⟨u, d, hu, -, hv⟩ := iterate_succ_eq_ok.1 h
    rw [Assignment.shape_move hv, ih hu]

omit [Neg α] [OfScientific α] [Elementary α] in
/-- The solution of a linear model gives the tangent vector. -/
theorem delta_eq_ok {d : List α} : settings.delta g s = .ok d ↔
    ∃ model solution, g.linearize s = .ok model ∧
      settings.linear.solve model.matrix (.sparse model.bias)
        (.ofList (List.replicate s.dimension 0)) = .ok solution ∧ solution.last.x = d := by
  rw [delta, bind_eq_ok]
  refine exists_congr fun model => ?_
  rw [LinearSolver.solve_eq, LinearSolver.fresh]
  cases settings.linear.solve model.matrix (.sparse model.bias)
      (.ofList (List.replicate s.dimension 0)) with
  | ok solution => simp [Except.map]
  | error e => simp [Except.map]

end Minimizer.Settings

/-! ## Measurements -/

section
variable {K : Type} [Field K] [LinearOrder K] [Elementary K] {ms : List (Measurement K)}
  {s : Assignment K}

/-- Measurements evaluate at every iterate. -/
theorem Measurement.Evaluate.exists_iterate (h : Evaluate ms s) (settings : Minimizer.Settings K)
    (k : Nat) : ∃ v, settings.iterate (.ofMeasurements ms) s k = .ok v ∧ Evaluate ms v := by
  induction k with
  | zero => exact ⟨s, rfl, h⟩
  | succ k ih =>
    obtain ⟨v, hv, heval⟩ := ih
    obtain ⟨model, hmodel, hregular, -, hcolumns, -⟩ := Graph.linearize_ofMeasurements heval
    have hover : model.Over v.dimension := ⟨hregular, hcolumns⟩
    obtain ⟨solution, hsolve, hlen⟩ : ∃ solution, settings.linear.solve model.matrix
        (.sparse model.bias) (.ofList (List.replicate v.dimension 0)) = .ok solution ∧
        solution.last.x.length = v.dimension := ⟨_, hover.solve_eq _, List.length_ofFn⟩
    have hdelta : settings.delta (.ofMeasurements ms) v = .ok solution.last.x :=
      Minimizer.Settings.delta_eq_ok.2 ⟨model, solution, hmodel, hsolve, rfl⟩
    exact ⟨_, Minimizer.Settings.iterate_succ_eq_ok.2
      ⟨v, _, hv, hdelta, Assignment.move_eq heval.isVector hlen⟩, heval.translate hlen⟩

/-- A run on a graph of measurements that evaluate refuses nothing. -/
theorem Measurement.Evaluate.evaluates (h : Evaluate ms s) (settings : Minimizer.Settings K) :
    settings.Evaluates (.ofMeasurements ms) s := by
  refine ⟨h.exists_cost, fun k _ => ⟨?_, fun _ => ?_⟩⟩
  · obtain ⟨v, hv, heval⟩ := h.exists_iterate settings k
    obtain ⟨model, hmodel, hregular, -, hcolumns, -⟩ := Graph.linearize_ofMeasurements heval
    obtain ⟨gradient, hgradient, -⟩ := LinearModel.Over.adjoint_eq ⟨hregular, hcolumns⟩
    exact ⟨v, _, hv, Graph.slope_eq_ok.2 ⟨model, gradient, hmodel, hgradient, rfl⟩⟩
  · obtain ⟨v, hv, heval⟩ := h.exists_iterate settings (k + 1)
    obtain ⟨cost, hcost⟩ := heval.exists_cost
    exact ⟨v, cost, hv, hcost⟩

end

namespace Minimizer.Settings

variable [Zero α] [Add α] [Sub α] [Neg α] [Mul α] [Div α] [LT α] [DecidableLT α] [BEq α]
  [OfScientific α] [Elementary α] {settings : Settings α} {g : Graph α} {s : Assignment α}

/-! ## The invariant of the loop -/

/-- What is known where a run has made some moves: it is at the iterate of this number, the cost
that it carries along is the cost there, and no test held. -/
structure Carries (settings : Settings α) (g : Graph α) (s : Assignment α) (k : Nat)
    (v : Assignment α) (cost : α) : Prop where
  start_finite : ∃ cost, g.cost s = .ok cost ∧ isFinite cost = true
  dimension_ne : s.dimension ≠ 0
  iterate_eq : settings.iterate g s k = .ok v
  cost_eq : g.cost v = .ok cost
  finite : isFinite cost = true
  before : ∀ i < k, ¬settings.Stops g s i
  unsettled : ¬settings.Settled g s k

variable {k : Nat} {v moved : Assignment α} {cost newCost : α} {model : LinearModel α}
  {gradient : List α} {solution : Solution α}

theorem Carries.enters (h : settings.Carries g s k v cost)
    (hk : k ≠ settings.maxIterations.toNat) : settings.Enters g s k :=
  ⟨h.start_finite, h.dimension_ne, h.before, hk, h.unsettled⟩

omit [Neg α] [OfScientific α] in
theorem Steps.slope_eq (step : settings.Steps g v model gradient solution moved newCost) :
    g.slope v = .ok (Elementary.norm gradient) :=
  Graph.slope_eq_ok.2 ⟨model, gradient, step.linearize_eq, step.adjoint_eq, rfl⟩

omit [Neg α] [OfScientific α] in
/-- An iteration leads to the next iterate. -/
theorem Steps.iterate_eq (step : settings.Steps g v model gradient solution moved newCost)
    (h : settings.iterate g s k = .ok v) :
    settings.delta g v = .ok solution.last.x ∧ settings.iterate g s (k + 1) = .ok moved := by
  have hdelta : settings.delta g v = .ok solution.last.x :=
    delta_eq_ok.2 ⟨model, solution, step.linearize_eq, step.solve_eq, rfl⟩
  exact ⟨hdelta, iterate_succ_eq_ok.2 ⟨v, _, h, hdelta, step.move_eq⟩⟩

/-- Where the gradient was not small and the next cost is finite, no test held. -/
theorem Carries.not_stops (h : settings.Carries g s k v cost)
    (hk : k ≠ settings.maxIterations.toNat)
    (step : settings.Steps g v model gradient solution moved newCost)
    (hfinite : isFinite newCost = true) : ¬settings.Stops g s k := by
  rintro (hmax | ⟨u, slope, hu, hslope, hsmall⟩ | ⟨u, c, hu, hc, hinfinite⟩ | hsettled)
  · exact hk hmax
  · obtain rfl := Except.ok.inj (h.iterate_eq.symm.trans hu)
    obtain rfl := Except.ok.inj (step.slope_eq.symm.trans hslope)
    exact step.steep hsmall
  · obtain rfl := Except.ok.inj ((step.iterate_eq h.iterate_eq).2.symm.trans hu)
    obtain rfl := Except.ok.inj (step.cost_eq.symm.trans hc)
    exact hinfinite hfinite
  · exact h.unsettled hsettled

/-- The test for the move to an iterate is made with what an iteration computes. -/
theorem Carries.settled_succ (h : settings.Carries g s k v cost)
    (step : settings.Steps g v model gradient solution moved newCost) :
    settings.Settled g s (k + 1) ↔
      settings.settles (cost - newCost) cost (Elementary.norm solution.last.x) = true := by
  obtain ⟨hdelta, hnext⟩ := step.iterate_eq h.iterate_eq
  constructor
  · rintro ⟨u, w, d, c, c', hu, hd, hw, hc, hc', hsettles⟩
    obtain rfl := Except.ok.inj (h.iterate_eq.symm.trans hu)
    obtain rfl := Except.ok.inj (hnext.symm.trans hw)
    obtain rfl := Except.ok.inj (hdelta.symm.trans hd)
    obtain rfl := Except.ok.inj (h.cost_eq.symm.trans hc)
    obtain rfl := Except.ok.inj (step.cost_eq.symm.trans hc')
    exact hsettles
  · exact fun hsettles =>
      ⟨v, moved, _, cost, newCost, h.iterate_eq, hdelta, hnext, h.cost_eq, step.cost_eq, hsettles⟩

/-- An iteration that goes on keeps the invariant. -/
theorem Carries.next (h : settings.Carries g s k v cost)
    (hk : k ≠ settings.maxIterations.toNat)
    (step : settings.Steps g v model gradient solution moved newCost)
    (hfinite : isFinite newCost = true)
    (hunsettled :
      ¬settings.settles (cost - newCost) cost (Elementary.norm solution.last.x) = true) :
    settings.Carries g s (k + 1) moved newCost where
  start_finite := h.start_finite
  dimension_ne := h.dimension_ne
  iterate_eq := (step.iterate_eq h.iterate_eq).2
  cost_eq := step.cost_eq
  finite := hfinite
  before i hi := by
    rcases Nat.lt_succ_iff_lt_or_eq.1 hi with hi | rfl
    · exact h.before i hi
    · exact h.not_stops hk step hfinite
  unsettled := fun hsettled => hunsettled ((h.settled_succ step).1 hsettled)

/-- An iteration that a run goes on from is either at a small gradient or leads to a next iterate
with a cost. -/
theorem Carries.exists_steps (h : settings.Carries g s k v cost)
    (hk : k ≠ settings.maxIterations.toNat) (heval : settings.Evaluates g s) :
    ∃ model gradient, g.linearize v = .ok model ∧
      model.matrix.adjoint (.sparse model.bias) = .ok gradient ∧
      (Elementary.norm gradient < settings.gradientNorm ∧ settings.Flat g s k ∨
        ∃ solution moved newCost,
          settings.Steps g v model gradient solution moved newCost) := by
  have hat := heval.evaluatesAt k (h.enters hk)
  obtain ⟨u, slope, hu, hslope⟩ := hat.slope_eq
  obtain rfl := Except.ok.inj (h.iterate_eq.symm.trans hu)
  obtain ⟨model, gradient, hmodel, hgradient, rfl⟩ := Graph.slope_eq_ok.1 hslope
  refine ⟨model, gradient, hmodel, hgradient, ?_⟩
  by_cases hsmall : Elementary.norm gradient < settings.gradientNorm
  · exact .inl ⟨hsmall, v, _, h.iterate_eq, hslope, hsmall⟩
  · have hsteep : ¬settings.Flat g s k := by
      rintro ⟨u, slope, hu, hslope', hsmall'⟩
      obtain rfl := Except.ok.inj (h.iterate_eq.symm.trans hu)
      obtain rfl := Except.ok.inj (hslope.symm.trans hslope')
      exact hsmall hsmall'
    obtain ⟨moved, newCost, hmoved, hcost⟩ := hat.next_eq hsteep
    obtain ⟨u, d, hu, hd, hmove⟩ := iterate_succ_eq_ok.1 hmoved
    obtain rfl := Except.ok.inj (h.iterate_eq.symm.trans hu)
    obtain ⟨model', solution, hmodel', hsolution, rfl⟩ := delta_eq_ok.1 hd
    obtain rfl := Except.ok.inj (hmodel.symm.trans hmodel')
    exact .inr ⟨solution, moved, newCost, hmodel, hgradient, hsmall, hsolution, hmove, hcost⟩

/-- The first iterate at which a test holds, with a finite cost. -/
def Ends (settings : Settings α) (g : Graph α) (s v : Assignment α) : Prop :=
  ∃ k cost, settings.Stops g s k ∧ (∀ i < k, ¬settings.Stops g s i) ∧
    settings.iterate g s k = .ok v ∧ g.cost v = .ok cost ∧ isFinite cost = true

theorem Carries.ends (h : settings.Carries g s k v cost) (hstops : settings.Stops g s k) :
    settings.Ends g s v :=
  ⟨k, cost, hstops, h.before, h.iterate_eq, h.cost_eq, h.finite⟩

/-- A run that carries its invariant along, with the budget that is left, ends at the first iterate
at which a test holds. -/
theorem Carries.descend (heval : settings.Evaluates g s) {budget : Nat}
    (hbudget : k + budget = settings.maxIterations.toNat) (h : settings.Carries g s k v cost) :
    ∃ out, settings.descend g (.fresh settings.linear) budget k v cost = .ok out ∧
      settings.Ends g s out.assignment := by
  induction budget generalizing k v cost with
  | zero => exact ⟨_, rfl, h.ends (.inl hbudget)⟩
  | succ budget ih =>
    have hk : k ≠ settings.maxIterations.toNat := by omega
    obtain ⟨model, gradient, hmodel, hgradient,
      ⟨hsmall, hflat⟩ | ⟨solution, moved, newCost, step⟩⟩ := h.exists_steps hk heval
    · exact ⟨_, descend_eq_ok.2 (.flat hmodel hgradient hsmall), h.ends (.inr (.inl hflat))⟩
    · by_cases hfinite : isFinite newCost = true
      · by_cases hsettles :
          settings.settles (cost - newCost) cost (Elementary.norm solution.last.x) = true
        · -- the move is accepted before the test is made, so the run ends behind it
          refine ⟨_, descend_eq_ok.2 (.settled step hfinite hsettles), k + 1, newCost,
            .inr (.inr (.inr ((h.settled_succ step).2 hsettles))), fun i hi => ?_,
            (step.iterate_eq h.iterate_eq).2, step.cost_eq, hfinite⟩
          rcases Nat.lt_succ_iff_lt_or_eq.1 hi with hi | rfl
          · exact h.before i hi
          · exact h.not_stops hk step hfinite
        · obtain ⟨out, hout, hends⟩ :=
            ih (by omega) (h.next hk step hfinite hsettles)
          exact ⟨_, descend_eq_ok.2 (.onward step hfinite hsettles (descend_eq_ok.1 hout)), hends⟩
      · have hunbounded : settings.Unbounded g s k :=
          ⟨moved, newCost, (step.iterate_eq h.iterate_eq).2, step.cost_eq, hfinite⟩
        exact ⟨_, descend_eq_ok.2 (.unbounded step hfinite),
          h.ends (.inr (.inr (.inl hunbounded)))⟩

/-! ## Runs -/

theorem Carries.evaluatesAt (h : settings.Carries g s k v cost)
    (step : settings.Steps g v model gradient solution moved newCost) :
    settings.EvaluatesAt g s k :=
  ⟨⟨v, _, h.iterate_eq, step.slope_eq⟩,
    fun _ => ⟨moved, newCost, (step.iterate_eq h.iterate_eq).2, step.cost_eq⟩⟩

/-- A run that gives an outcome refused nothing from where it was on. -/
theorem Carries.evaluates {budget : Nat} {out : Outcome α}
    (hbudget : k + budget = settings.maxIterations.toNat) (h : settings.Carries g s k v cost)
    (hrun : settings.Descends g budget k v cost out) {j : Nat} (hj : k ≤ j)
    (henters : settings.Enters g s j) : settings.EvaluatesAt g s j := by
  -- a run goes on from no iterate behind one at which a test holds
  have hlast : ∀ {i}, settings.Stops g s i → j ≤ i := fun hstops =>
    Nat.le_of_not_lt fun hlt => henters.before _ hlt hstops
  induction budget generalizing k v cost out with
  | zero => exact absurd (Nat.le_antisymm (hlast (.inl hbudget)) hj) (hbudget ▸ henters.left)
  | succ budget ih =>
    have hk : k ≠ settings.maxIterations.toNat := by omega
    cases hrun with
    | flat hmodel hgradient hsmall =>
      have hslope := Graph.slope_eq_ok.2 ⟨_, _, hmodel, hgradient, rfl⟩
      have hflat : settings.Flat g s k := ⟨v, _, h.iterate_eq, hslope, hsmall⟩
      obtain rfl := Nat.le_antisymm (hlast (.inr (.inl hflat))) hj
      exact ⟨⟨v, _, h.iterate_eq, hslope⟩, fun hsteep => absurd hflat hsteep⟩
    | unbounded step hinfinite =>
      have hunbounded : settings.Unbounded g s k :=
        ⟨_, _, (step.iterate_eq h.iterate_eq).2, step.cost_eq, hinfinite⟩
      obtain rfl := Nat.le_antisymm (hlast (.inr (.inr (.inl hunbounded)))) hj
      exact h.evaluatesAt step
    | settled step hfinite hsettles =>
      have hsettled := (h.settled_succ step).2 hsettles
      rcases Nat.lt_or_ge k j with hlt | hge
      · obtain rfl := Nat.le_antisymm (hlast (.inr (.inr (.inr hsettled)))) hlt
        exact absurd hsettled henters.unsettled
      · obtain rfl := Nat.le_antisymm hj hge
        exact h.evaluatesAt step
    | onward step hfinite hunsettled hrest =>
      rcases Nat.lt_or_ge k j with hlt | hge
      · exact ih (by omega) (h.next hk step hfinite hunsettled) hrest hlt
      · obtain rfl := Nat.le_antisymm hj hge
        exact h.evaluatesAt step

/-- At the start, the invariant holds where there is something to move from a finite cost. -/
theorem Carries.start (hcost : g.cost s = .ok cost) (hfinite : isFinite cost = true)
    (hdimension : s.dimension ≠ 0) : settings.Carries g s 0 s cost :=
  ⟨⟨cost, hcost, hfinite⟩, hdimension, rfl, hcost, hfinite,
    fun i hi => absurd hi (Nat.not_lt_zero i), id⟩

/-- From a finite cost, where there is something to move, a run descends. -/
theorem minimize_eq_descend (hcost : g.cost s = .ok cost) (hfinite : isFinite cost = true)
    (hdimension : s.dimension ≠ 0) :
    settings.minimize g s =
      settings.descend g (.fresh settings.linear) settings.maxIterations.toNat 0 s cost := by
  simp only [minimize, hcost, hfinite, bind, Except.bind, Bool.not_true, Bool.false_eq_true,
    if_false, if_neg hdimension]

/-- The three ways in which a run goes that refuses nothing that it evaluates. -/
theorem Evaluates.minimize (h : settings.Evaluates g s) :
    ∃ out cost, settings.minimize g s = .ok out ∧ g.cost s = .ok cost ∧
      (¬isFinite cost = true ∧ out.assignment = s ∨
        isFinite cost = true ∧ s.dimension = 0 ∧ out.assignment = s ∨
        isFinite cost = true ∧ s.dimension ≠ 0 ∧ settings.Ends g s out.assignment) := by
  obtain ⟨cost, hcost⟩ := h.cost_eq
  by_cases hfinite : isFinite cost = true
  · by_cases hdimension : s.dimension = 0
    · have hrun : settings.minimize g s = .ok ⟨s, .nothingToMove, []⟩ := by
        simp only [Settings.minimize, hcost, hfinite, hdimension, bind, Except.bind, Bool.not_true,
          Bool.false_eq_true, if_false, if_true]
      exact ⟨_, cost, hrun, hcost, .inr (.inl ⟨hfinite, hdimension, rfl⟩)⟩
    · obtain ⟨out, hout, hends⟩ :=
        (Carries.start hcost hfinite hdimension).descend h (Nat.zero_add _)
      exact ⟨out, cost, (minimize_eq_descend hcost hfinite hdimension).trans hout, hcost,
        .inr (.inr ⟨hfinite, hdimension, hends⟩)⟩
  · have hrun : settings.minimize g s = .ok ⟨s, .unboundedStart cost, []⟩ := by
      simp only [Settings.minimize, hcost, hfinite, bind, Except.bind, Bool.not_false, if_true]
    exact ⟨_, cost, hrun, hcost, .inl ⟨hfinite, rfl⟩⟩

/-- A run gives an outcome exactly where nothing that it evaluates is refused. -/
theorem exists_minimize_iff : (∃ out, settings.minimize g s = .ok out) ↔
    settings.Evaluates g s := by
  constructor
  · rintro ⟨out, hout⟩
    obtain ⟨cost, hcost, -⟩ := bind_eq_ok.1 hout
    refine ⟨⟨cost, hcost⟩, fun k henters => ?_⟩
    obtain ⟨cost', hcost', hfinite⟩ := henters.finite
    obtain rfl := Except.ok.inj (hcost.symm.trans hcost')
    rw [minimize_eq_descend hcost hfinite henters.dimension_ne] at hout
    exact (Carries.start hcost hfinite henters.dimension_ne).evaluates (Nat.zero_add _)
      (descend_eq_ok.1 hout) (Nat.zero_le k) henters
  · intro h
    obtain ⟨out, -, hout, -⟩ := h.minimize
    exact ⟨out, hout⟩

/-- Where a run refuses nothing that it evaluates, it answers the assignment it is given if the cost
there is not finite or there is nothing to move, and otherwise the first iterate at which a test
holds. The answer has a finite cost if the start has, and it has the shape of the start. -/
theorem minimize_iterate (h : settings.Evaluates g s) :
    ∃ out cost, settings.minimize g s = .ok out ∧ g.cost s = .ok cost ∧
      (¬isFinite cost = true ∨ s.dimension = 0 → out.assignment = s) ∧
      (isFinite cost = true → s.dimension ≠ 0 → ∃ k, IsLeast {k | settings.Stops g s k} k ∧
        settings.iterate g s k = .ok out.assignment) ∧
      (isFinite cost = true →
        ∃ reached, g.cost out.assignment = .ok reached ∧ isFinite reached = true) ∧
      out.assignment.shape = s.shape ∧ out.assignment.layout = s.layout ∧
      out.assignment.dimension = s.dimension := by
  obtain ⟨out, cost, hout, hcost, ⟨hinfinite, hs⟩ | ⟨hfinite, hdimension, hs⟩ |
    ⟨hfinite, hdimension, k, reached, hstops, hbefore, hk, hreached, hreachedFinite⟩⟩ := h.minimize
  · refine ⟨out, cost, hout, hcost, fun _ => hs, fun hf => absurd hf hinfinite,
      fun hf => absurd hf hinfinite, ?_⟩
    rw [hs]
    exact ⟨rfl, rfl, rfl⟩
  · refine ⟨out, cost, hout, hcost, fun _ => hs, fun _ hne => absurd hdimension hne, ?_⟩
    rw [hs]
    exact ⟨fun _ => ⟨cost, hcost, hfinite⟩, rfl, rfl, rfl⟩
  · have hshape := shape_iterate hk
    refine ⟨out, cost, hout, hcost, ?_, fun _ _ => ⟨k, ⟨hstops, fun i hi => ?_⟩, hk⟩,
      fun _ => ⟨reached, hreached, hreachedFinite⟩, hshape,
      Assignment.layout_eq_of_shape hshape, Assignment.dimension_eq_of_shape hshape⟩
    · rintro (hnot | hzero)
      · exact absurd hfinite hnot
      · exact absurd hzero hdimension
    · exact Nat.le_of_not_lt fun hlt => hbefore i hlt hi

/-- A point on a line that is measured, and the displacement to another one. -/
theorem minimize_iterate_displacement :
    let s : Assignment ℝ := ⟨[(1, ⟨.line, [0], rfl⟩), (2, ⟨.line, [5], rfl⟩)]⟩
    let g : Graph ℝ :=
      .ofMeasurements [.prior "pin" 1 ⟨.line, [1], rfl⟩ 1, .between "step" 1 2 [1] 3]
    let settings : Settings ℝ := ⟨3, 0, 0, 0, 0, ⟨0, 2, false⟩, false⟩
    settings.Evaluates g s ∧ ∃ out k, settings.minimize g s = .ok out ∧
      IsLeast {k | settings.Stops g s k} k ∧ settings.iterate g s k = .ok out.assignment := by
  intro s g settings
  have hms : ∀ m ∈ ([.prior "pin" 1 ⟨.line, [1], rfl⟩ 1, .between "step" 1 2 [1] 3] :
      List (Measurement ℝ)), ∃ r, m.residual.value s = .ok r ∧ r.data ≠ [] := by
    simp only [List.forall_mem_cons, List.not_mem_nil, false_implies, implies_true, and_true]
    exact ⟨⟨_, rfl, List.cons_ne_nil _ _⟩, ⟨_, rfl, List.cons_ne_nil _ _⟩⟩
  have hv : s.IsVector := by simp [s, Assignment.IsVector, Kind.line, Kind.IsVector]
  have hevaluates : settings.Evaluates g s :=
    Measurement.Evaluate.evaluates ⟨by decide, hv, hms⟩ settings
  obtain ⟨out, cost, hout, -, -, hleast, -⟩ := minimize_iterate hevaluates
  obtain ⟨k, hk, hiterate⟩ := hleast (isFinite_eq_true cost) (by decide)
  exact ⟨hevaluates, out, k, hout, hk, hiterate⟩

end Minimizer.Settings

end LeastSquares
