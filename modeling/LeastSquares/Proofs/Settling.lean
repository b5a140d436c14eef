import LeastSquares.Proofs.GlobalMinimum
import LeastSquares.Proofs.Iterates
import LeastSquares.Proofs.Reals

/-!
# Moves that settle

A run settles when a move is short and the cost hardly changed with it, absolutely or relative to
the cost before. A cost that is next to nothing is not divided by: with such a cost it is the
absolute change that the relative tolerance bounds (`Minimizer.Settings.settles_iff`).

The test is made behind every accepted move, and behind no other place, with the costs before and
behind the move and the length of the solution that it goes along (`Minimizer.Settings.Accepts`).
So the move at which a run ends settled is the one that the test holds of
(`Minimizer.Settings.minimize_settled_iff`).
-/

namespace LeastSquares

/-! ## The test -/

section
variable {K : Type}

theorem magnitude_eq_abs [AddGroup K] [LinearOrder K] [AddLeftMono K] (x : K) :
    magnitude x = |x| := by
  unfold magnitude
  split
  · rename_i h
    rw [abs_of_neg h]
  · rename_i h
    rw [abs_of_nonneg (not_lt.1 h)]

namespace Minimizer

variable [Field K] [LinearOrder K] [IsStrictOrderedRing K]

/-- Whether a cost hardly changes by the tolerances of a run: by less than the absolute tolerance
or, relative to a cost that is not next to nothing, by less than the relative one. Of a cost next
to nothing it is the change itself that is less than the relative tolerance. -/
def Settings.Unchanged (settings : Settings K) (cost newCost : K) : Prop :=
  |cost - newCost| < settings.absoluteChange ∨
    1e-12 < |cost| ∧ |cost - newCost| / |cost| < settings.relativeChange ∨
    |cost| ≤ 1e-12 ∧ |cost - newCost| < settings.relativeChange

theorem abs_relative (change cost : K) :
    |relative change cost| = if 1e-12 < |cost| then |change| / |cost| else |change| := by
  rw [relative, magnitude_eq_abs]
  split
  · rw [abs_div, abs_abs]
  · rfl

/-- A move settles exactly if it is short and the cost hardly changes. -/
theorem Settings.settles_iff (settings : Settings K) (cost newCost stepNorm : K) :
    settings.settles (cost - newCost) cost stepNorm = true ↔
      stepNorm < settings.stepNorm ∧ settings.Unchanged cost newCost := by
  have hrelative : |relative (cost - newCost) cost| < settings.relativeChange ↔
      1e-12 < |cost| ∧ |cost - newCost| / |cost| < settings.relativeChange ∨
        |cost| ≤ 1e-12 ∧ |cost - newCost| < settings.relativeChange := by
    rw [abs_relative]
    split
    · rename_i h
      simp [h, not_le.2 h]
    · rename_i h
      simp [h, not_lt.1 h]
  simp only [settles, magnitude_eq_abs, Bool.and_eq_true, Bool.or_eq_true, decide_eq_true_eq,
    hrelative, Unchanged, and_comm]

end Minimizer

end

/-! ## Runs -/

namespace Minimizer.Settings

section
variable {α : Type} [Zero α] [Add α] [Sub α] [Neg α] [Mul α] [Div α] [LT α] [DecidableLT α]
  [BEq α] [OfScientific α] [Elementary α]

/-- The move from an iterate along a tangent vector, with the costs before and behind it. -/
structure Accepts (settings : Settings α) (g : Graph α) (s : Assignment α) (k : Nat)
    (u v : Assignment α) (d : List α) (cost newCost : α) : Prop where
  iterate_eq : settings.iterate g s k = .ok u
  delta_eq : settings.delta g u = .ok d
  move_eq : u.move (.ofList d) = .ok v
  cost_eq : g.cost u = .ok cost
  newCost_eq : g.cost v = .ok newCost

variable {settings : Settings α} {g : Graph α} {s v : Assignment α} {budget index n k : Nat}
  {cost : α} {out : Outcome α} {move : Move α}

/-- A run that ends settled made a move. -/
theorem Descends.trace_ne_nil (h : settings.Descends g budget index s cost out)
    (hsettled : out.ending = .settled) : out.trace ≠ [] := by
  cases h with
  | exhausted | flat | unbounded => cases hsettled
  | settled | onward => exact List.cons_ne_nil _ _

/-- Behind each move that a run accepts, it ends settled exactly if the test holds of the move. -/
theorem Descends.settled_iff (h : settings.Descends g budget index v cost out)
    (hv : settings.iterate g s n = .ok v) (hcost : g.cost v = .ok cost)
    (hmove : out.trace[k]? = some move) :
    ∃ u d c newCost, settings.Accepts g s (n + k) u move.assignment d c newCost ∧
      (out.ending = .settled ∧ out.trace.length = k + 1 ↔
        settings.settles (c - newCost) c (Elementary.norm d) = true) := by
  induction h generalizing n k with
  | exhausted | flat | unbounded => cases hmove
  | settled step finite settles =>
    cases k with
    | succ k => cases hmove
    | zero =>
      cases hmove
      obtain ⟨hdelta, -⟩ := step.iterate_eq hv
      exact ⟨_, _, _, _, ⟨hv, hdelta, step.move_eq, hcost, step.cost_eq⟩,
        fun _ => settles, fun _ => ⟨rfl, rfl⟩⟩
  | onward step finite unsettled descends ih =>
    obtain ⟨hdelta, hnext⟩ := step.iterate_eq hv
    cases k with
    | zero =>
      cases hmove
      refine ⟨_, _, _, _, ⟨hv, hdelta, step.move_eq, hcost, step.cost_eq⟩, ?_,
        fun settles => absurd settles unsettled⟩
      rintro ⟨hsettled, hlength⟩
      exact absurd (List.length_eq_zero_iff.1 (Nat.succ.inj hlength))
        (descends.trace_ne_nil hsettled)
    | succ k =>
      obtain ⟨u, d, c, newCost, haccepts, hiff⟩ := ih hnext step.cost_eq hmove
      rw [Nat.add_right_comm] at haccepts
      exact ⟨u, d, c, newCost, haccepts, by simpa using hiff⟩

/-- A run that accepts a move descends. -/
theorem minimize_descends (h : settings.minimize g s = .ok out)
    (hmove : out.trace[k]? = some move) :
    ∃ cost, g.cost s = .ok cost ∧
      settings.Descends g settings.maxIterations.toNat 0 s cost out := by
  obtain ⟨cost, hcost, h⟩ := bind_eq_ok.1 h
  split at h
  · cases h
    cases hmove
  · split at h
    · cases h
      cases hmove
    · exact ⟨cost, hcost, descend_eq_ok.1 h⟩

end

section
variable {K : Type} [Field K] [LinearOrder K] [IsStrictOrderedRing K] [Elementary K]
  {settings : Settings K} {g : Graph K} {s : Assignment K} {out : Outcome K} {k : Nat}
  {move : Move K}

/-- Behind each move that a run accepts, it ends settled exactly if the move is shorter than its
tolerance and the cost hardly changes by its own. -/
theorem minimize_settled_iff (h : settings.minimize g s = .ok out)
    (hmove : out.trace[k]? = some move) :
    ∃ u d cost newCost, settings.Accepts g s k u move.assignment d cost newCost ∧
      (out.ending = .settled ∧ out.trace.length = k + 1 ↔
        Elementary.norm d < settings.stepNorm ∧ settings.Unchanged cost newCost) := by
  obtain ⟨cost, hcost, hdescends⟩ := minimize_descends h hmove
  obtain ⟨u, d, c, newCost, haccepts, hiff⟩ := hdescends.settled_iff (n := 0) rfl hcost hmove
  rw [Nat.zero_add] at haccepts
  exact ⟨u, d, c, newCost, haccepts, hiff.trans (settings.settles_iff ..)⟩

end

/-! ## One point with a target -/

/-- A point of the line at zero. -/
def atZero : Assignment ℝ := ⟨[(1, ⟨.line, [0], rfl⟩)]⟩

/-- The graph that measures a point of the line against a target. -/
noncomputable def pinned (target : ℝ) : Graph ℝ :=
  .ofMeasurements [.prior "pin" 1 ⟨.line, [target], rfl⟩ 1]

theorem cost_pinned (target x : ℝ) :
    (pinned target).cost (atZero.translate [x]) = .ok ((x - target) * (x - target)) := by
  change Except.ok (0 + ((0 + x - target) * 1 * ((0 + x - target) * 1) + 0)) = _
  norm_num

theorem cost_pinned_atZero (target : ℝ) :
    (pinned target).cost atZero = .ok (target * target) := by
  have hzero : atZero.translate [0] = atZero := atZero.translate_zeros 1
  have h := cost_pinned target 0
  rwa [hzero, zero_sub, neg_mul_neg] at h

theorem norm_singleton (x : ℝ) : Elementary.norm [x] = |x| := by
  change √(x * x + 0) = |x|
  rw [add_zero, Real.sqrt_mul_self_eq_abs]

/-- With one move, a run from zero reaches the target, and it ends settled if the test holds of that
move. -/
theorem minimize_pinned (target : ℝ) (settings : Settings ℝ) (hmoves : settings.maxIterations = 1)
    (hgradient : settings.gradientNorm ≤ 0) (hprecision : settings.linear.precision ≤ 0)
    (hbudget : 1 ≤ settings.linear.maxIterations)
    (hsettles : settings.settles (target * target - 0) (target * target) |target| = true) :
    ∃ (out : Outcome ℝ) (move : Move ℝ), settings.minimize (pinned target) atZero = .ok out ∧
      (pinned target).cost out.assignment = .ok 0 ∧ out.ending = .settled ∧ out.trace = [move] := by
  have hms : ∀ m ∈ [Measurement.prior "pin" 1 ⟨.line, [target], rfl⟩ (1 : ℝ)],
      ∃ r, m.residual.value atZero = .ok r ∧ r.data ≠ [] := by
    intro m hm
    rw [List.mem_singleton.1 hm]
    exact ⟨_, rfl, List.cons_ne_nil _ _⟩
  have hv : atZero.IsVector := by simp [atZero, Assignment.IsVector, Kind.line, Kind.IsVector]
  obtain ⟨step, least, hlen, hleast, ⟨least', hleast', hle⟩, hdescend⟩ :=
    descend_succ (s := atZero) ⟨by decide, hv, hms⟩ hgradient hprecision hbudget
  obtain ⟨x, rfl⟩ := List.length_eq_one_iff.1 hlen
  obtain rfl := Except.ok.inj (hleast.symm.trans hleast')
  obtain rfl := Except.ok.inj ((cost_pinned target x).symm.trans hleast)
  -- no motion costs less, and the motion to the target costs nothing
  obtain ⟨c, hc, hlec⟩ := hle [target] rfl
  obtain rfl := Except.ok.inj ((cost_pinned target target).symm.trans hc)
  rw [sub_self, mul_zero] at hlec
  obtain rfl : x = target :=
    sub_eq_zero.1 (mul_self_eq_zero.1 (le_antisymm hlec (mul_self_nonneg _)))
  obtain ⟨move, hmove⟩ := hdescend 0 0 (x * x)
  rw [sub_self, mul_zero, norm_singleton, if_pos hsettles] at hmove
  refine ⟨⟨atZero.translate [x], .settled, [move]⟩, move, ?_, ?_, rfl, rfl⟩
  · rw [minimize_eq_descend (cost_pinned_atZero x) (isFinite_eq_true _) (by decide), hmoves]
    exact hmove
  · simpa using cost_pinned x x

/-- A run that settles with its only move, from a cost that is not next to nothing. -/
theorem minimize_settled_iff_pinned :
    let settings : Settings ℝ := ⟨1, 0, 2, 2, 0, ⟨0, 1, false⟩, false⟩
    ∃ (out : Outcome ℝ) (move : Move ℝ), settings.minimize (pinned 1) atZero = .ok out ∧
      out.trace[0]? = some move ∧ out.ending = .settled ∧
      ∃ d cost newCost, settings.Accepts (pinned 1) atZero 0 atZero move.assignment d cost newCost ∧
        Elementary.norm d < 2 ∧ 1e-12 < |cost| ∧ |cost - newCost| / |cost| < 2 := by
  intro settings
  have hsettles : settings.settles (1 * 1 - 0) (1 * 1) |1| = true := by
    rw [settles_iff]
    simp only [settings, Unchanged]
    norm_num
  obtain ⟨out, move, hout, -, hsettled, htrace⟩ :=
    minimize_pinned 1 settings rfl le_rfl le_rfl le_rfl hsettles
  have hmove : out.trace[0]? = some move := by rw [htrace]; rfl
  obtain ⟨u, d, cost, newCost, haccepts, hiff⟩ := minimize_settled_iff hout hmove
  obtain ⟨hshort, hchange⟩ := hiff.1 ⟨hsettled, by rw [htrace]; rfl⟩
  obtain rfl : atZero = u := Except.ok.inj haccepts.iterate_eq
  obtain rfl := Except.ok.inj ((cost_pinned_atZero 1).symm.trans haccepts.cost_eq)
  refine ⟨out, move, hout, hmove, hsettled, d, _, newCost, haccepts, hshort, ?_⟩
  rcases hchange with habsolute | hrelative | ⟨hsmall, -⟩
  · exact absurd habsolute (not_lt.2 (abs_nonneg _))
  · exact hrelative
  · norm_num at hsmall

/-- A run that settles with its only move although the move changes the cost by as much as the cost,
half of which is the relative tolerance, and the absolute tolerance is zero: the cost is next to
nothing. -/
theorem minimize_settled_small :
    let settings : Settings ℝ := ⟨1, 0, 1 / 2, 1, 0, ⟨0, 400, false⟩, true⟩
    let target : ℝ := 1 / 2 ^ 24
    ∃ (out : Outcome ℝ) (move : Move ℝ) (cost newCost : ℝ),
      settings.minimize (pinned target) atZero = .ok out ∧ out.trace = [move] ∧
      (pinned target).cost atZero = .ok cost ∧ cost ≠ 0 ∧
      (pinned target).cost out.assignment = .ok newCost ∧ out.ending = .settled ∧
      ¬(|cost - newCost| < settings.absoluteChange ∨
        |cost - newCost| / |cost| < settings.relativeChange) := by
  intro settings target
  have hsettles : settings.settles (target * target - 0) (target * target) |target| = true := by
    rw [settles_iff]
    simp only [settings, target, Unchanged]
    norm_num
  obtain ⟨out, move, hout, hnew, hsettled, htrace⟩ :=
    minimize_pinned target settings rfl le_rfl le_rfl (by decide) hsettles
  refine ⟨out, move, _, 0, hout, htrace, cost_pinned_atZero target, ?_, hnew, hsettled, ?_⟩
  · simp only [target]
    norm_num
  · simp only [settings, target]
    norm_num

end Minimizer.Settings

end LeastSquares
