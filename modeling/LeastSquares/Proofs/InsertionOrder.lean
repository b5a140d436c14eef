import LeastSquares.Proofs.GlobalMinimum
import LeastSquares.Proofs.JointAxes
import LeastSquares.Proofs.Lockstep
import LeastSquares.Proofs.Reordering

/-!
# The order of insertion

A residual that reads no variables but those under its keys (`Residual.ReadsOnly`) has the same
trace, hence the same Jacobian blocks, at assignments that hold the same variables in another order.
Only the columns differ that the blocks are assembled at, and they differ as the spans of the
variables do, so the linear models have the same rows but for the order of the columns
(`ResidualFactor.ignoresOrder`). Such models have the same normal equations, and motions that
correspond lead to assignments that differ again only in the order, so the order in which variables
were inserted does not matter to a run of the method of Gauss and Newton
(`Minimizer.Settings.minimize_reordered`).
-/

namespace LeastSquares

variable {K : Type} {n₁ n₂ : Nat} {s₁ s₂ : Assignment K}

open Assignment (Reordered SameParts)

/-! ## Residuals of the variables under some keys -/

/-- Assignments that hold the same under some keys. -/
def Assignment.AgreeOn (keys : List Int) (s₁ s₂ : Assignment K) : Prop :=
  ∀ key ∈ keys, s₁.find key = s₂.find key

/-- A residual that reads no variables but those under some keys. -/
def Residual.ReadsOnly (r : Residual K) (keys : List Int) : Prop :=
  ∀ {s₁ s₂ : Assignment K}, s₁.AgreeOn keys s₂ → r.trace s₁ = r.trace s₂

theorem Residual.ReadsOnly.value_eq {r : Residual K} {keys : List Int} (h : r.ReadsOnly keys)
    (hs : s₁.AgreeOn keys s₂) : r.value s₁ = r.value s₂ := by
  rw [value, value, h hs]

theorem Assignment.AgreeOn.readKind_eq {keys : List Int} (h : s₁.AgreeOn keys s₂) {key : Int}
    (hkey : key ∈ keys) (kind : Kind) :
    Residual.readKind s₁ key kind = Residual.readKind s₂ key kind := by
  rw [Residual.readKind, Residual.readKind, get, get, h key hkey]

/-- A measurement reads the variables that it refers to. -/
theorem Measurement.readsOnly [Zero K] [Add K] [Sub K] [Neg K] [Mul K] [Elementary K]
    (m : Measurement K) : m.residual.ReadsOnly m.keys := by
  intro s₁ s₂ h
  cases m with
  | prior name key target weight =>
    simp only [residual, Residual.prior, h.readKind_eq (List.mem_singleton_self key)]
  | between name first second difference weight =>
    have hsecond : second ∈ [first, second] :=
      List.mem_cons_of_mem first (List.mem_singleton_self second)
    simp only [residual, Residual.between, h first (List.mem_cons_self ..), h.readKind_eq hsecond]

/-! ## Linear models of the same rows -/

section
variable [CommSemiring K] {e : Fin n₂ ≃ Fin n₁}

/-- Two models of the same rows but for the order of the columns. -/
structure LinearModel.SameRows (model₁ model₂ : LinearModel K) (e : Fin n₂ ≃ Fin n₁) : Prop where
  product_eq : ∀ v : Fin n₁ → K, model₂.product (v ∘ e) = model₁.product v
  target_eq : model₂.target = model₁.target

theorem LinearModel.SameRows.sameNormal {model₁ model₂ : LinearModel K}
    (h : model₁.SameRows model₂ e) : model₁.SameNormal model₂ e where
  gram v w := by rw [h.product_eq, h.product_eq]
  moment v := by rw [h.product_eq, h.target_eq]

/-- Stacks of such models are such models. -/
theorem Graph.Stack.Holds.sameRows {stack₁ stack₂ : Stack K}
    {models₁ models₂ : List (LinearModel K)}
    (h₁ : stack₁.Holds models₁) (h₂ : stack₂.Holds models₂)
    (h : List.Forall₂ (fun m₁ m₂ => m₁.SameRows m₂ e) models₁ models₂) :
    stack₁.model.SameRows stack₂.model e := by
  have hmap : ∀ {f g : LinearModel K → List K},
      (∀ {m₁ m₂ : LinearModel K}, m₁.SameRows m₂ e → f m₁ = g m₂) →
      models₁.map f = models₂.map g := by
    intro f g hfg
    have hall : List.Forall₂ Eq (models₁.map f) (models₂.map g) := by
      rw [List.forall₂_map_left_iff, List.forall₂_map_right_iff]
      exact h.imp fun _ _ hm => hfg hm
    rwa [List.forall₂_eq_eq_eq] at hall
  constructor
  · intro v
    rw [h₁.product_eq, h₂.product_eq, hmap fun hm => (hm.product_eq v).symm]
  · rw [h₁.target_eq, h₂.target_eq, hmap fun hm => hm.target_eq.symm]

end

/-! ## Factors -/

namespace Assignment.Reordered

/-- Assignments that differ in the order are perturbed to such assignments. -/
theorem perturb [Zero K] [Add K] [Elementary K] (h : Reordered s₁ s₂) {keys : List Int}
    {t₁ t₂ u₁ : Assignment K} (ht : Reordered t₁ t₂) (hu₁ : perturb s₁ keys t₁ = .ok u₁) :
    ∃ u₂, LeastSquares.perturb s₂ keys t₂ = .ok u₂ ∧ Reordered u₁ u₂ := by
  induction keys generalizing t₁ t₂ with
  | nil =>
    cases hu₁
    exact ⟨t₂, rfl, ht⟩
  | cons key keys ih =>
    obtain ⟨x, hx, hu₁⟩ := bind_eq_ok.1 hu₁
    obtain ⟨moved, hmoved, hu₁⟩ := bind_eq_ok.1 hu₁
    obtain ⟨t₁', hset, hu₁⟩ := bind_eq_ok.1 hu₁
    obtain ⟨t₂', hset₂, ht'⟩ := ht.set hset
    obtain ⟨u₂, hu₂, hu⟩ := ih ht' hu₁
    rw [h.find_eq] at hx
    exact ⟨u₂, bind_eq_ok.2 ⟨x, hx, bind_eq_ok.2 ⟨moved, hmoved, bind_eq_ok.2 ⟨t₂', hset₂, hu₂⟩⟩⟩,
      hu⟩

theorem jacobianBlocks_eq [Zero K] [Add K] [Elementary K] (h : Reordered s₁ s₂)
    (gradients : List (Gradient K)) (keys : List Int) :
    jacobianBlocks s₁ gradients keys = jacobianBlocks s₂ gradients keys := by
  induction keys with
  | nil => rfl
  | cons key keys ih => rw [jacobianBlocks, jacobianBlocks, h.find_eq, ih]

end Assignment.Reordered

/-- A factor that costs the same at assignments that differ in the order, and has linear models
there of the same rows but for the order of the columns. -/
structure Factor.IgnoresOrder [CommSemiring K] (f : Factor K) : Prop where
  cost_eq : ∀ {s₁ s₂}, Reordered s₁ s₂ → f.cost s₁ = f.cost s₂
  model_over : ∀ {s model}, f.linearize s = .ok model → model.Over s.dimension
  linearize_eq : ∀ {s₁ s₂ model₁} {e : Fin s₂.dimension ≃ Fin s₁.dimension}, Reordered s₁ s₂ →
    SameParts s₁ s₂ e → f.linearize s₁ = .ok model₁ →
      ∃ model₂, f.linearize s₂ = .ok model₂ ∧ model₁.SameRows model₂ e

/-- A factor of a residual that reads only the variables under its keys ignores the order. -/
theorem ResidualFactor.ignoresOrder [CommRing K] [Elementary K] {f : ResidualFactor K}
    (hf : f.residual.ReadsOnly f.keys) : f.toFactor.IgnoresOrder where
  cost_eq h := by
    change f.cost _ = f.cost _
    rw [cost, cost, hf.value_eq fun key _ => h.find_eq key]
  model_over := linearize_over
  linearize_eq := by
    intro s₁ s₂ model₁ e h hparts hmodel₁
    obtain ⟨u₁, t, blocks, h₁⟩ := linearize_eq_ok.1 hmodel₁
    obtain ⟨u₂, hu₂, hu⟩ := h.perturb h h₁.perturb_eq
    have htrace : f.residual.trace u₂ = .ok t := by
      rw [← hf fun key _ => hu.find_eq key]
      exact h₁.trace_eq
    have hblocks := h₁.blocks_eq
    rw [h.jacobianBlocks_eq] at hblocks
    -- the same blocks are assembled at other spans
    obtain ⟨-, hlength⟩ := of_jacobianBlocks hblocks
    rw [Traced.length_gradients] at hlength
    obtain ⟨model₂, hmodel₂, -⟩ :=
      assemble_spec (ne_nil_of_assemble h₁.data_ne h₁.assemble_eq) h₁.data_ne hlength
    have h₂ : f.Linearizes s₂ u₂ t blocks model₂ := ⟨hu₂, htrace, h₁.data_ne, hblocks, hmodel₂⟩
    obtain ⟨-, -, -, htarget₁, hproduct₁⟩ := h₁.spec
    obtain ⟨-, -, -, htarget₂, hproduct₂⟩ := h₂.spec
    refine ⟨model₂, linearize_eq_ok.2 ⟨u₂, t, blocks, h₂⟩, fun v => ?_,
      htarget₂.trans htarget₁.symm⟩
    rw [hproduct₁, hproduct₂]
    congr 1
    funext i
    refine congrArg List.sum (List.map_congr_left fun block hblock => ?_)
    obtain ⟨x, hx, -⟩ := hlength i i.2 block hblock
    rw [← h.find_eq] at hx
    rw [hparts v hx]

/-! ## Graphs -/

/-- A graph of factors that ignore the order does the same at assignments that differ in it. -/
theorem Graph.simulates_reordered [Field K] [LinearOrder K] [Elementary K] {g : Graph K}
    (hg : ∀ f ∈ g.factors, f.IgnoresOrder) : Simulates Reordered g g where
  dimension_eq h := h.dimension_eq
  cost_eq := by
    intro s₁ s₂ c h hcost
    obtain ⟨cs, hcs, hsum⟩ := cost_eq_ok.1 hcost
    have hmem := (List.forall₂_and_left _ _).2 ⟨fun f hf => hf, hcs⟩
    exact cost_eq_ok.2 ⟨cs, hmem.imp fun f c hc => ((hg f hc.1).cost_eq h).symm.trans hc.2, hsum⟩
  linearize_eq := by
    intro s₁ s₂ model₁ h hmodel₁
    obtain ⟨e, hparts⟩ := h.exists_equiv
    obtain ⟨models₁, -, hmodels₁, -⟩ := linearize_eq_ok.1 hmodel₁
    obtain ⟨models₂, hmodels₂, hsame⟩ := exists_forall₂ hmodels₁ fun f hf m₁ hm₁ =>
      (hg f hf).linearize_eq h hparts hm₁
    obtain ⟨stack₁, hstack₁, hholds₁, hover₁⟩ := linearize_over hmodels₁ <|
      forall_mem_of_forall₂ hmodels₁ fun f hf m hm => (hg f hf).model_over hm
    obtain ⟨stack₂, hstack₂, hholds₂, hover₂⟩ := linearize_over hmodels₂ <|
      forall_mem_of_forall₂ hmodels₂ fun f hf m hm => (hg f hf).model_over hm
    cases hmodel₁.symm.trans hstack₁
    have hrows := hholds₁.sameRows hholds₂ hsame
    refine ⟨stack₂.model, e, hstack₂, hrows.sameNormal.agrees hover₁ hover₂, fun hmove => ?_⟩
    exact h.move List.length_ofFn List.length_ofFn (hparts _) hmove

/-! ## Runs -/

namespace Minimizer

variable [Field K] [LinearOrder K] [IsStrictOrderedRing K] [Elementary K] [LawfulNorm K]

/-- The order in which variables were inserted does not matter to a run on residuals that read only
the variables under their keys: from reachable assignments that hold the same variables it reaches
such assignments, for the same reason and by as many moves. -/
theorem Settings.minimize_reordered {fs : List (ResidualFactor K)}
    (hfs : ∀ f ∈ fs, f.residual.ReadsOnly f.keys) (hs₁ : s₁.Reachable) (hs₂ : s₂.Reachable)
    (hfind : ∀ key, s₁.find key = s₂.find key) (settings : Settings K) {out₁ : Outcome K}
    (hout₁ : settings.minimize (.ofResiduals fs) s₁ = .ok out₁) :
    ∃ out₂, settings.minimize (.ofResiduals fs) s₂ = .ok out₂ ∧
      (∀ key, out₁.assignment.find key = out₂.assignment.find key) ∧
      out₂.ending = out₁.ending ∧ out₂.trace.length = out₁.trace.length := by
  have hordered : Reordered s₁ s₂ := .of_find hs₁.nodup_keys hs₂.nodup_keys hfind
  have hfactors : ∀ f ∈ (Graph.ofResiduals fs).factors, f.IgnoresOrder := by
    intro f hf
    obtain ⟨r, hr, rfl⟩ := List.mem_map.1 hf
    exact ResidualFactor.ignoresOrder (hfs r hr)
  obtain ⟨out₂, hout₂, halike⟩ := (Graph.simulates_reordered hfactors).minimize hordered hout₁
  exact ⟨out₂, hout₂, halike.related.find_eq, halike.ending_eq, halike.trace.length_eq.symm⟩

/-- Two points of a line and a point of a plane, inserted in either order. -/
theorem Settings.minimize_reordered_reversed :
    let s₁ : Assignment ℝ :=
      ⟨[(1, ⟨.line, [0], rfl⟩), (2, ⟨.plane, [5, 0], rfl⟩), (3, ⟨.line, [4], rfl⟩)]⟩
    let s₂ : Assignment ℝ :=
      ⟨[(3, ⟨.line, [4], rfl⟩), (2, ⟨.plane, [5, 0], rfl⟩), (1, ⟨.line, [0], rfl⟩)]⟩
    let ms : List (Measurement ℝ) := [.prior "pin" 1 ⟨.line, [1], rfl⟩ 2,
      .prior "hold" 2 ⟨.plane, [0, 1], rfl⟩ 1, .between "step" 1 3 [1] 3]
    let fs := ms.map fun m => m.toResidualFactor
    let settings : Settings ℝ := ⟨5, 1 / 8, 1 / 8, 1 / 8, 1 / 8, ⟨1 / 8, 2, false⟩, false⟩
    (∀ f ∈ fs, f.residual.ReadsOnly f.keys) ∧ s₁.Reachable ∧ s₂.Reachable ∧
      (∀ key, s₁.find key = s₂.find key) ∧ s₁.span 1 = .ok ⟨0, 1⟩ ∧ s₂.span 1 = .ok ⟨3, 4⟩ ∧
      ∃ out₁ out₂, settings.minimize (.ofResiduals fs) s₁ = .ok out₁ ∧
        settings.minimize (.ofResiduals fs) s₂ = .ok out₂ ∧
        (∀ key, out₁.assignment.find key = out₂.assignment.find key) ∧
        out₂.ending = out₁.ending ∧ out₂.trace.length = out₁.trace.length := by
  intro s₁ s₂ ms fs settings
  have hfs : ∀ f ∈ fs, f.residual.ReadsOnly f.keys := by
    intro f hf
    obtain ⟨m, -, rfl⟩ := List.mem_map.1 hf
    exact m.readsOnly
  have hs₁ : s₁.Reachable := .of_nodup (by decide)
  have hs₂ : s₂.Reachable := .of_nodup (by decide)
  have hordered : Reordered s₁ s₂ := ⟨(List.reverse_perm s₁.entries).symm, by decide⟩
  have hevaluate : Measurement.Evaluate ms s₁ := by
    refine ⟨by decide, by simp [s₁, Assignment.IsVector, Kind.line, Kind.plane, Kind.IsVector],
      fun m hm => ?_⟩
    rcases List.mem_cons.1 hm with rfl | hm
    · exact ⟨_, rfl, List.cons_ne_nil _ _⟩
    · rcases List.mem_cons.1 hm with rfl | hm
      · exact ⟨_, rfl, List.cons_ne_nil _ _⟩
      · rw [List.mem_singleton.1 hm]
        exact ⟨_, rfl, List.cons_ne_nil _ _⟩
  obtain ⟨out₁, hout₁⟩ := exists_minimize hevaluate settings
  obtain ⟨out₂, hout₂, hout⟩ :=
    minimize_reordered hfs hs₁ hs₂ hordered.find_eq settings hout₁
  exact ⟨hfs, hs₁, hs₂, hordered.find_eq, rfl, rfl, out₁, out₂, hout₁, hout₂, hout⟩

end Minimizer

end LeastSquares
