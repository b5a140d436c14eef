import LeastSquares.Proofs.Descent
import LeastSquares.Proofs.NormalEquations
import LeastSquares.Proofs.Reals

/-!
# Runs in lockstep

Two runs of the method of Gauss and Newton, of one graph each, stay related where one iteration
keeps them related: at related assignments the graphs cost the same and have linear models that the
runs cannot tell apart (`LinearModel.Agrees`), such as those with the same normal equations
(`LinearModel.SameNormal.agrees`), and motions that correspond lead to related assignments
(`Graph.Simulates`). Then every number that the runs compare with a tolerance is the same, so they
accept the same moves and end for the same reason (`Graph.Simulates.minimize`).
-/

namespace LeastSquares

variable {K : Type} [Field K] [LinearOrder K] [IsStrictOrderedRing K] [Elementary K]

/-- Vectors of one squared length are equally long. -/
theorem norm_eq_of_normSq_eq [LawfulNorm K] {xs ys : List K}
    (h : Dense.normSq xs = Dense.normSq ys) :
    (Elementary.norm xs : K) = Elementary.norm ys := by
  refine (mul_self_inj (LawfulNorm.norm_nonneg xs) (LawfulNorm.norm_nonneg ys)).1 ?_
  rw [LawfulNorm.norm_mul_self, LawfulNorm.norm_mul_self, h]

/-- What a run finds out about a linear model it also finds out about another one: the gradient is
as long, and the solution is the same but for the order of the unknowns, found in as many steps. -/
structure LinearModel.Agrees {n₁ n₂ : Nat} (model₁ model₂ : LinearModel K)
    (e : Fin n₂ ≃ Fin n₁) : Prop where
  adjoint : ∀ {gradient₁ : List K}, model₁.matrix.adjoint (.sparse model₁.bias) = .ok gradient₁ →
    ∃ gradient₂, model₂.matrix.adjoint (.sparse model₂.bias) = .ok gradient₂ ∧
      Dense.normSq gradient₁ = Dense.normSq gradient₂
  solve : ∀ {settings : LinearSettings K} {out₁ : Solution K},
    settings.solve model₁.matrix (.sparse model₁.bias) (.ofList (List.replicate n₁ 0)) =
      .ok out₁ →
    ∃ (out₂ : Solution K) (y : Fin n₁ → K),
      settings.solve model₂.matrix (.sparse model₂.bias) (.ofList (List.replicate n₂ 0)) =
        .ok out₂ ∧
      out₁.last.x = List.ofFn y ∧ out₂.last.x = List.ofFn (y ∘ e) ∧
      out₂.last.steps = out₁.last.steps

omit [IsStrictOrderedRing K] [Elementary K] in
/-- Models with the same normal equations agree. -/
theorem LinearModel.SameNormal.agrees {n₁ n₂ : Nat} {model₁ model₂ : LinearModel K}
    {e : Fin n₂ ≃ Fin n₁} (h : model₁.SameNormal model₂ e) (h₁ : model₁.Over n₁)
    (h₂ : model₂.Over n₂) : model₁.Agrees model₂ e where
  adjoint := by
    intro gradient₁ hgradient₁
    obtain ⟨_, gradient₂, hgradient₁', hgradient₂, hgradient⟩ := h.adjoint h₁ h₂
    cases hgradient₁.symm.trans hgradient₁'
    exact ⟨gradient₂, hgradient₂, hgradient.symm⟩
  solve := by
    intro settings out₁ hsolve₁
    obtain ⟨_, out₂, y, hsolve₁', hsolve₂, hx₁, hx₂, hsteps⟩ := h.solve h₁ h₂ settings
    cases hsolve₁.symm.trans hsolve₁'
    exact ⟨out₂, y, hsolve₂, hx₁, hx₂, hsteps⟩

variable {R : Assignment K → Assignment K → Prop} {g₁ g₂ : Graph K} {s₁ s₂ t₁ t₂ : Assignment K}

/-- One graph does at related assignments what another one does, as far as a run can tell. -/
structure Graph.Simulates (R : Assignment K → Assignment K → Prop) (g₁ g₂ : Graph K) : Prop where
  dimension_eq : ∀ {s₁ s₂}, R s₁ s₂ → s₂.dimension = s₁.dimension
  cost_eq : ∀ {s₁ s₂ c}, R s₁ s₂ → g₁.cost s₁ = .ok c → g₂.cost s₂ = .ok c
  linearize_eq : ∀ {s₁ s₂ model₁}, R s₁ s₂ → g₁.linearize s₁ = .ok model₁ →
    ∃ (model₂ : LinearModel K) (e : Fin s₂.dimension ≃ Fin s₁.dimension),
      g₂.linearize s₂ = .ok model₂ ∧ model₁.Agrees model₂ e ∧
      ∀ {y : Fin s₁.dimension → K} {t₁}, s₁.move (.ofList (List.ofFn y)) = .ok t₁ →
        ∃ t₂, s₂.move (.ofList (List.ofFn (y ∘ e))) = .ok t₂ ∧ R t₁ t₂

namespace Minimizer

/-- Moves that lead to related assignments and agree in every number. -/
structure Move.Alike (R : Assignment K → Assignment K → Prop) (m₁ m₂ : Move K) : Prop where
  index_eq : m₂.index = m₁.index
  related : R m₁.assignment m₂.assignment
  cost_eq : m₂.cost = m₁.cost
  change_eq : m₂.change = m₁.change
  stepNorm_eq : m₂.stepNorm = m₁.stepNorm
  gradientNorm_eq : m₂.gradientNorm = m₁.gradientNorm
  linearSteps_eq : m₂.linearSteps = m₁.linearSteps

/-- Outcomes of related assignments and moves that ended for the same reason. -/
structure Outcome.Alike (R : Assignment K → Assignment K → Prop) (out₁ out₂ : Outcome K) :
    Prop where
  related : R out₁.assignment out₂.assignment
  ending_eq : out₂.ending = out₁.ending
  trace : List.Forall₂ (Move.Alike R) out₁.trace out₂.trace

end Minimizer

namespace Graph.Simulates

open Minimizer

variable [LawfulNorm K] {settings : Minimizer.Settings K}

/-- An iteration from a related assignment computes what corresponds. -/
theorem steps (h : Simulates R g₁ g₂) (hs : R s₁ s₂) {model₁ : LinearModel K}
    {gradient₁ : List K} {solution₁ : Solution K} {newCost : K}
    (hstep : settings.Steps g₁ s₁ model₁ gradient₁ solution₁ t₁ newCost) :
    ∃ model₂ gradient₂ solution₂ t₂,
      settings.Steps g₂ s₂ model₂ gradient₂ solution₂ t₂ newCost ∧
      (Elementary.norm solution₂.last.x : K) = Elementary.norm solution₁.last.x ∧
      ∀ (index : Nat) (cost : K), (moveOf index cost gradient₁ solution₁ t₁ newCost).Alike R
        (moveOf index cost gradient₂ solution₂ t₂ newCost) := by
  obtain ⟨hmodel₁, hgradient₁, hsteep, hsolve₁, hmove₁, hcost₁⟩ := hstep
  obtain ⟨model₂, e, hmodel₂, hagrees, hmove⟩ := h.linearize_eq hs hmodel₁
  obtain ⟨gradient₂, hgradient₂, hgradient⟩ := hagrees.adjoint hgradient₁
  obtain ⟨solution₂, y, hsolve₂, hx₁, hx₂, hsteps⟩ := hagrees.solve hsolve₁
  rw [hx₁] at hmove₁
  obtain ⟨t₂, hmove₂, ht⟩ := hmove hmove₁
  rw [← hx₂] at hmove₂
  have hgradientNorm : (Elementary.norm gradient₂ : K) = Elementary.norm gradient₁ :=
    norm_eq_of_normSq_eq hgradient.symm
  have hstepNorm : (Elementary.norm solution₂.last.x : K) = Elementary.norm solution₁.last.x := by
    refine norm_eq_of_normSq_eq ?_
    rw [hx₁, hx₂, Dense.normSq_ofFn, Dense.normSq_ofFn, comp_equiv_dotProduct_comp_equiv]
  refine ⟨model₂, gradient₂, solution₂, t₂, ⟨hmodel₂, hgradient₂, ?_, hsolve₂, hmove₂,
    h.cost_eq ht hcost₁⟩, hstepNorm, fun index cost => ?_⟩
  · rwa [hgradientNorm]
  · exact ⟨rfl, ht, rfl, rfl, hstepNorm, hgradientNorm, hsteps⟩

/-- Iterations from related assignments stay in lockstep. -/
theorem descends (h : Simulates R g₁ g₂) {budget index : Nat} {cost : K} {out₁ : Outcome K}
    (hrun : settings.Descends g₁ budget index s₁ cost out₁) (hs : R s₁ s₂) :
    ∃ out₂, settings.Descends g₂ budget index s₂ cost out₂ ∧ out₁.Alike R out₂ := by
  induction hrun generalizing s₂ with
  | exhausted => exact ⟨_, .exhausted, hs, rfl, .nil⟩
  | flat hmodel₁ hgradient₁ hsmall =>
    obtain ⟨model₂, e, hmodel₂, hagrees, -⟩ := h.linearize_eq hs hmodel₁
    obtain ⟨gradient₂, hgradient₂, hgradient⟩ := hagrees.adjoint hgradient₁
    rw [norm_eq_of_normSq_eq hgradient] at hsmall
    exact ⟨_, .flat hmodel₂ hgradient₂ hsmall, hs, rfl, .nil⟩
  | unbounded hstep hinfinite =>
    obtain ⟨_, _, _, _, hstep₂, -⟩ := h.steps hs hstep
    exact ⟨_, .unbounded hstep₂ hinfinite, hs, rfl, .nil⟩
  | @settled budget index s cost _ _ _ _ newCost hstep hfinite hsettles =>
    obtain ⟨_, _, _, _, hstep₂, hnorm, hmove⟩ := h.steps hs hstep
    have hmoved := (hmove index cost).related
    rw [← hnorm] at hsettles
    exact ⟨_, .settled hstep₂ hfinite hsettles, hmoved, rfl, .cons (hmove index cost) .nil⟩
  | @onward budget index s cost _ _ _ _ newCost rest hstep hfinite hunsettled _ ih =>
    obtain ⟨_, _, _, _, hstep₂, hnorm, hmove⟩ := h.steps hs hstep
    rw [← hnorm] at hunsettled
    obtain ⟨rest₂, hrest₂, hrest⟩ := ih (hmove index cost).related
    exact ⟨_, .onward hstep₂ hfinite hunsettled hrest₂, hrest.related, hrest.ending_eq,
      .cons (hmove index cost) hrest.trace⟩

/-- Runs from related assignments stay in lockstep. -/
theorem minimize (h : Simulates R g₁ g₂) {out₁ : Outcome K} (hs : R s₁ s₂)
    (hrun : settings.minimize g₁ s₁ = .ok out₁) :
    ∃ out₂, settings.minimize g₂ s₂ = .ok out₂ ∧ out₁.Alike R out₂ := by
  obtain ⟨cost, hcost, hrun⟩ := bind_eq_ok.1 hrun
  simp only [Settings.minimize, h.cost_eq hs hcost, h.dimension_eq hs, bind, Except.bind]
  split at hrun
  · rename_i hinfinite
    cases hrun
    rw [if_pos hinfinite]
    exact ⟨_, rfl, hs, rfl, .nil⟩
  · rename_i hfinite
    rw [if_neg hfinite]
    split at hrun
    · rename_i hdimension
      cases hrun
      rw [if_pos hdimension]
      exact ⟨_, rfl, hs, rfl, .nil⟩
    · rename_i hdimension
      rw [if_neg hdimension]
      obtain ⟨out₂, hout₂, hout⟩ := h.descends (Settings.descend_eq_ok.1 hrun) hs
      exact ⟨out₂, Settings.descend_eq_ok.2 hout₂, hout⟩

end Graph.Simulates

end LeastSquares
