import LeastSquares.Minimizer
import LeastSquares.Proofs.Records

/-!
# Runs of the method of Gauss and Newton

One linear solver serves all iterations of a run. Whatever it remembers, it serves as well as a new
one (`Minimizer.Settings.descend_eq_fresh`), so an iteration is told without it
(`Minimizer.Settings.descend_add_one`).

What a run does that gives an outcome is a relation with a rule for every way in which an iteration
can go (`Minimizer.Settings.Descends`). The rules for an iteration that moves share what it computes
(`Minimizer.Settings.Steps`). The relation holds exactly of the runs (`Settings.descend_eq_ok`), so
what every run has is proved by induction on it.
-/

namespace LeastSquares.Minimizer

variable {α : Type} [Zero α] [Add α] [Sub α] [Neg α] [Mul α] [Div α] [LT α] [DecidableLT α] [BEq α]
  [OfScientific α] [Elementary α]

/-- An iteration whose gradient is not small, up to the cost behind its motion. -/
structure Settings.Steps (settings : Settings α) (g : Graph α) (s : Assignment α)
    (model : LinearModel α) (gradient : List α) (solution : Solution α) (moved : Assignment α)
    (newCost : α) : Prop where
  linearize_eq : g.linearize s = .ok model
  adjoint_eq : model.matrix.adjoint (.sparse model.bias) = .ok gradient
  steep : ¬Elementary.norm gradient < settings.gradientNorm
  solve_eq : settings.linear.solve model.matrix (.sparse model.bias)
    (.ofList (List.replicate s.dimension 0)) = .ok solution
  move_eq : s.move (.ofList solution.last.x) = .ok moved
  cost_eq : g.cost moved = .ok newCost

/-- The move that an iteration makes if its cost is finite. -/
def moveOf (index : Nat) (cost : α) (gradient : List α) (solution : Solution α)
    (moved : Assignment α) (newCost : α) : Move α :=
  ⟨index, moved, newCost, cost - newCost, Elementary.norm solution.last.x, Elementary.norm gradient,
    solution.last.steps⟩

/-- The runs from an assignment, with a budget, from a number of moves and a cost to an outcome. -/
inductive Settings.Descends (settings : Settings α) (g : Graph α) :
    Nat → Nat → Assignment α → α → Outcome α → Prop
  | exhausted {index s cost} : settings.Descends g 0 index s cost ⟨s, .exhausted, []⟩
  | flat {budget index s cost model gradient} (linearize_eq : g.linearize s = .ok model)
      (adjoint_eq : model.matrix.adjoint (.sparse model.bias) = .ok gradient)
      (small : Elementary.norm gradient < settings.gradientNorm) :
      settings.Descends g (budget + 1) index s cost ⟨s, .flat, []⟩
  | unbounded {budget index s cost model gradient solution moved newCost}
      (step : settings.Steps g s model gradient solution moved newCost)
      (infinite : ¬isFinite newCost = true) :
      settings.Descends g (budget + 1) index s cost ⟨s, .unbounded newCost index, []⟩
  | settled {budget index s cost model gradient solution moved newCost}
      (step : settings.Steps g s model gradient solution moved newCost)
      (finite : isFinite newCost = true)
      (settles : settings.settles (cost - newCost) cost (Elementary.norm solution.last.x) = true) :
      settings.Descends g (budget + 1) index s cost
        ⟨moved, .settled, [moveOf index cost gradient solution moved newCost]⟩
  | onward {budget index s cost model gradient solution moved newCost rest}
      (step : settings.Steps g s model gradient solution moved newCost)
      (finite : isFinite newCost = true)
      (unsettled :
        ¬settings.settles (cost - newCost) cost (Elementary.norm solution.last.x) = true)
      (descends : settings.Descends g budget (index + 1) moved newCost rest) :
      settings.Descends g (budget + 1) index s cost
        ⟨rest.assignment, rest.ending,
          moveOf index cost gradient solution moved newCost :: rest.trace⟩

variable {settings : Settings α} {g : Graph α}

/-- Whatever a solver remembers, it serves as well as a new one. -/
theorem Settings.descend_eq_fresh {solver : LinearSolver α}
    (h : solver.settings = settings.linear) (budget index : Nat) (s : Assignment α) (cost : α) :
    settings.descend g solver budget index s cost =
      settings.descend g (.fresh settings.linear) budget index s cost := by
  induction budget generalizing solver index s cost with
  | zero => rfl
  | succ budget ih =>
    rw [descend, descend]
    refine bind_congr fun model => bind_congr fun gradient => ?_
    have hnext := (solver.settings_solve model.matrix (.sparse model.bias)
      (.ofList (List.replicate s.dimension 0))).trans h
    have hfresh := (LinearSolver.fresh settings.linear).settings_solve model.matrix
      (.sparse model.bias) (.ofList (List.replicate s.dimension 0))
    simp only [LinearSolver.fst_solve, h, ih hnext, ih hfresh]
    rfl

/-- An iteration and what follows, with a new solver for either. -/
theorem Settings.descend_add_one (budget index : Nat) (s : Assignment α) (cost : α) :
    settings.descend g (.fresh settings.linear) (budget + 1) index s cost = (do
      let model ← g.linearize s
      let gradient ← model.matrix.adjoint (.sparse model.bias)
      if Elementary.norm gradient < settings.gradientNorm then .ok ⟨s, .flat, []⟩
      else
        let solution ← settings.linear.solve model.matrix (.sparse model.bias)
          (.ofList (List.replicate s.dimension 0))
        let moved ← s.move (.ofList solution.last.x)
        let newCost ← g.cost moved
        if isFinite newCost then
          let move := moveOf index cost gradient solution moved newCost
          if settings.settles (cost - newCost) cost (Elementary.norm solution.last.x) then
            .ok ⟨moved, .settled, [move]⟩
          else
            let rest ←
              settings.descend g (.fresh settings.linear) budget (index + 1) moved newCost
            .ok ⟨rest.assignment, rest.ending, move :: rest.trace⟩
        else .ok ⟨s, .unbounded newCost index, []⟩) := by
  rw [descend]
  refine bind_congr fun model => bind_congr fun gradient => ?_
  have hnext := (LinearSolver.fresh settings.linear).settings_solve model.matrix
    (.sparse model.bias) (.ofList (List.replicate s.dimension 0))
  simp only [descend_eq_fresh hnext]
  rfl

/-- A run that gives an outcome is one of the relation: each exit is one of its cases. -/
theorem Settings.descends_of_descend {budget index : Nat} {s : Assignment α} {cost : α}
    {out : Outcome α}
    (h : settings.descend g (.fresh settings.linear) budget index s cost = .ok out) :
    settings.Descends g budget index s cost out := by
  induction budget generalizing index s cost out with
  | zero =>
    cases h
    exact .exhausted
  | succ budget ih =>
    rw [descend_add_one] at h
    obtain ⟨model, hmodel, h⟩ := bind_eq_ok.1 h
    obtain ⟨gradient, hgradient, h⟩ := bind_eq_ok.1 h
    dsimp only at h
    split at h
    · rename_i hsmall
      cases h
      exact .flat hmodel hgradient hsmall
    · rename_i hsteep
      obtain ⟨solution, hsolution, h⟩ := bind_eq_ok.1 h
      obtain ⟨moved, hmoved, h⟩ := bind_eq_ok.1 h
      obtain ⟨newCost, hcost, h⟩ := bind_eq_ok.1 h
      have hstep : settings.Steps g s model gradient solution moved newCost :=
        ⟨hmodel, hgradient, hsteep, hsolution, hmoved, hcost⟩
      split at h
      · rename_i hfinite
        split at h
        · rename_i hsettles
          cases h
          exact .settled hstep hfinite hsettles
        · rename_i hunsettled
          obtain ⟨rest, hrest, h⟩ := bind_eq_ok.1 h
          cases h
          exact .onward hstep hfinite hunsettled (ih hrest)
      · rename_i hinfinite
        cases h
        exact .unbounded hstep hinfinite

/-- A run of the relation is computed. -/
theorem Settings.Descends.descend_eq {budget index : Nat} {s : Assignment α} {cost : α}
    {out : Outcome α} (h : settings.Descends g budget index s cost out) :
    settings.descend g (.fresh settings.linear) budget index s cost = .ok out := by
  induction h with
  | exhausted => rfl
  | flat hmodel hgradient hsmall =>
    simp only [descend_add_one, hmodel, hgradient, if_pos hsmall, bind, Except.bind]
  | unbounded hstep hinfinite =>
    simp only [descend_add_one, hstep.linearize_eq, hstep.adjoint_eq, if_neg hstep.steep,
      hstep.solve_eq, hstep.move_eq, hstep.cost_eq, if_neg hinfinite, bind, Except.bind]
  | settled hstep hfinite hsettles =>
    simp only [descend_add_one, hstep.linearize_eq, hstep.adjoint_eq, if_neg hstep.steep,
      hstep.solve_eq, hstep.move_eq, hstep.cost_eq, if_pos hfinite, if_pos hsettles, bind,
      Except.bind]
  | onward hstep hfinite hunsettled _ ih =>
    simp only [descend_add_one, hstep.linearize_eq, hstep.adjoint_eq, if_neg hstep.steep,
      hstep.solve_eq, hstep.move_eq, hstep.cost_eq, if_pos hfinite, if_neg hunsettled, ih, bind,
      Except.bind]

/-- The relation holds exactly of the runs that give an outcome. -/
theorem Settings.descend_eq_ok {budget index : Nat} {s : Assignment α} {cost : α}
    {out : Outcome α} :
    settings.descend g (.fresh settings.linear) budget index s cost = .ok out ↔
      settings.Descends g budget index s cost out := ⟨descends_of_descend, Descends.descend_eq⟩

end LeastSquares.Minimizer
