import LeastSquares.Proofs.Linearization
import LeastSquares.Proofs.Reals
import LeastSquares.Proofs.Shapes
import LeastSquares.Residual.Algebra
import LeastSquares.Residual.Measurement

/-!
# Costs and linear models

The cost of a residual is evaluated at an assignment itself, its linear model where every variable
was moved along a tangent vector of length zero. Where variables stay in place the two see the same
residual, so the bias of the model is as long as the cost says (`Assignment.AtRest.coherent`). The
biases of the factors of a graph are materialized, moved down and put below one another, and no two
of them share a row, so this remains true of a graph (`Graph.coherent`), whether it stands alone or
as a factor of a larger one.

The main statement, `Graph.cost_eq_normSq_bias`, says this of graphs of residuals, together with
when they have linear models.
-/

namespace LeastSquares

variable {K : Type} [CommRing K] {s : Assignment K}

/-- Where a factor has a linear model, its cost is the squared length of the bias. -/
def Factor.Coherent (f : Factor K) (s : Assignment K) : Prop :=
  ∀ model, f.linearize s = .ok model →
    model.Regular ∧ f.cost s = .ok (Dense.normSq model.target)

namespace Graph

variable {g : Graph K}

/-- The cost of a graph of coherent factors is the squared length of the bias of its linear model:
biases come one below the other, so their squared lengths add up as the costs do. -/
theorem linearize_coherent (hg : ∀ f ∈ g.factors, f.Coherent s) {model : LinearModel K}
    (hmodel : g.linearize s = .ok model) :
    model.Regular ∧ g.cost s = .ok (Dense.normSq model.target) := by
  obtain ⟨models, -, hmodels, -, -⟩ := linearize_eq_ok.1 hmodel
  obtain ⟨stack, hstack, hholds⟩ := linearize_holds hmodels <|
    forall_mem_of_forall₂ hmodels fun f hf m hm => (hg f hf m hm).1
  obtain rfl : model = stack.model := Except.ok.inj (hmodel.symm.trans hstack)
  obtain ⟨costs, hcosts, hlengths⟩ := exists_forall₂
    (P := fun f c => f.cost s = .ok c) (Q := fun m c => Dense.normSq m.target = c) hmodels
    fun f hf m hm => ⟨_, (hg f hf m hm).2, rfl⟩
  have hsum : costs = models.map fun m => Dense.normSq m.target := by
    rw [← List.forall₂_eq_eq_eq, List.forall₂_map_right_iff]
    exact hlengths.flip.imp fun _ _ h => h.symm
  refine ⟨hholds.regular, cost_eq_ok.2 ⟨costs, hcosts, ?_⟩⟩
  rw [hholds.target_eq, ← List.flatMap_def, Dense.normSq_flatMap, hsum]

/-- A graph of coherent factors is a coherent factor of a larger graph. -/
theorem coherent (hg : ∀ f ∈ g.factors, f.Coherent s) (name : String) :
    (g.toFactor name).Coherent s := fun _ hmodel => linearize_coherent hg hmodel

/-- A graph of coherent factors has a linear model exactly where all its factors have one. -/
theorem exists_linearize (hg : ∀ f ∈ g.factors, f.Coherent s) :
    (∃ model, g.linearize s = .ok model) ↔ ∀ f ∈ g.factors, ∃ model, f.linearize s = .ok model := by
  constructor
  · rintro ⟨model, hmodel⟩
    obtain ⟨models, -, hmodels, -, -⟩ := linearize_eq_ok.1 hmodel
    exact forall_mem_of_forall₂ hmodels.flip fun m _ f hf => ⟨m, hf⟩
  · intro h
    choose! model hmodel using h
    have hmodels : List.Forall₂ (fun f m => f.linearize s = .ok m) g.factors
        (g.factors.map model) := by
      rw [List.forall₂_map_right_iff, List.forall₂_same]
      exact hmodel
    obtain ⟨stack, hstack, -⟩ := linearize_holds hmodels <|
      forall_mem_of_forall₂ hmodels fun f hf m hm => (hg f hf m hm).1
    exact ⟨_, hstack⟩

end Graph

/-! ## Residuals -/

variable [Elementary K]

/-- What the linear model of a residual takes at an assignment: a key at least, variables under all
keys, and a value with an entry at least. -/
structure ResidualFactor.EvaluatesAt (f : ResidualFactor K) (s : Assignment K) : Prop where
  keys_ne : f.keys ≠ []
  mem_keys : ∀ key ∈ f.keys, ∃ x, s.find key = .ok x
  value : ∃ r, f.residual.value s = .ok r ∧ r.data ≠ []

namespace Assignment.AtRest

variable {f : ResidualFactor K}

/-- A linearization evaluates the residual at the assignment itself. -/
theorem linearizes (hs : s.AtRest) (hnodup : s.keys.Nodup) {u : Assignment K} {t : Traced K}
    {blocks : List (Int × List (List K))} {model : LinearModel K}
    (h : f.Linearizes s u t blocks model) : u = s ∧ f.EvaluatesAt s := by
  obtain ⟨hmap, hblocks⟩ := of_jacobianBlocks h.blocks_eq
  rw [Traced.length_gradients] at hblocks
  have hkeys : ∀ key ∈ f.keys, ∃ x, s.find key = .ok x := by
    intro key hkey
    rw [← hmap] at hkey
    obtain ⟨block, hblock, rfl⟩ := List.mem_map.1 hkey
    obtain ⟨x, hx, -⟩ := hblocks 0 (List.length_pos_iff.2 h.data_ne) block hblock
    exact ⟨x, hx⟩
  have hu : u = s := Except.ok.inj (h.perturb_eq.symm.trans (hs.perturb_self hnodup hkeys))
  have htrace := h.trace_eq
  rw [hu] at htrace
  refine ⟨hu, fun hnil => ?_, hkeys, t.value, bind_eq_ok.2 ⟨t, htrace, rfl⟩, h.data_ne⟩
  rw [hnil, List.map_eq_nil_iff] at hmap
  exact ne_nil_of_assemble h.data_ne h.assemble_eq hmap

/-- Where variables stay in place, a residual has a linear model exactly where it evaluates. -/
theorem exists_linearize (hs : s.AtRest) (hnodup : s.keys.Nodup) :
    (∃ model, f.linearize s = .ok model) ↔ f.EvaluatesAt s := by
  constructor
  · rintro ⟨model, hmodel⟩
    obtain ⟨u, t, blocks, h⟩ := ResidualFactor.linearize_eq_ok.1 hmodel
    exact (hs.linearizes hnodup h).2
  · intro h
    obtain ⟨r, hr, hdata⟩ := h.value
    obtain ⟨t, ht, hvalue⟩ := bind_eq_ok.1 hr
    cases hvalue
    obtain ⟨blocks, model, hmodel⟩ := hs.exists_linearizes hnodup h.keys_ne h.mem_keys ht hdata
    exact ⟨model, ResidualFactor.linearize_eq_ok.2 ⟨s, t, blocks, hmodel⟩⟩

/-- Where variables stay in place, the bias of the linear model is the negated residual, so its
squared length is the cost. -/
theorem coherent (hs : s.AtRest) (hnodup : s.keys.Nodup) (f : ResidualFactor K) :
    f.toFactor.Coherent s := by
  intro model hmodel
  obtain ⟨u, t, blocks, h⟩ := ResidualFactor.linearize_eq_ok.1 hmodel
  obtain ⟨rfl, -⟩ := hs.linearizes hnodup h
  obtain ⟨hregular, -, -, htarget, -⟩ := h.spec
  have hvalue : f.residual.value u = .ok t.value := bind_eq_ok.2 ⟨t, h.trace_eq, rfl⟩
  refine ⟨hregular, bind_eq_ok.2 ⟨t.value, hvalue, ?_⟩⟩
  rw [htarget, Dense.normSq_neg]

end Assignment.AtRest

/-- Where variables stay in place, the linear model of a graph of residuals exists exactly where all
of them evaluate, and the squared length of its bias is the cost of the graph; so it is for each
residual by itself. -/
theorem Graph.cost_eq_normSq_bias (hs : s.Reachable) (hrest : s.AtRest)
    (fs : List (ResidualFactor K)) :
    (∀ f ∈ fs, ((∃ model, f.linearize s = .ok model) ↔ f.EvaluatesAt s) ∧
      ∀ model, f.linearize s = .ok model →
        ∃ c, f.cost s = .ok c ∧ model.bias.normSq = .ok c) ∧
    ((∃ model, (ofResiduals fs).linearize s = .ok model) ↔ ∀ f ∈ fs, f.EvaluatesAt s) ∧
    ∀ model, (ofResiduals fs).linearize s = .ok model →
      ∃ c, (ofResiduals fs).cost s = .ok c ∧ model.bias.normSq = .ok c := by
  have hcoherent := hrest.coherent hs.nodup_keys
  have hexists : ∀ f : ResidualFactor K,
      (∃ model, f.linearize s = .ok model) ↔ f.EvaluatesAt s := by
    intro f
    exact hrest.exists_linearize hs.nodup_keys
  have hfactors : ∀ f ∈ (ofResiduals fs).factors, f.Coherent s :=
    List.forall_mem_map.2 fun f _ => hcoherent f
  refine ⟨?_, ?_, ?_⟩
  · intro f _
    refine ⟨hexists f, ?_⟩
    intro model hmodel
    obtain ⟨hregular, hcost⟩ := hcoherent f model hmodel
    exact ⟨_, hcost, hregular.normSq_bias⟩
  · rw [exists_linearize hfactors, ofResiduals, List.forall_mem_map]
    exact forall₂_congr fun f _ => hexists f
  · intro model hmodel
    obtain ⟨hregular, hcost⟩ := linearize_coherent hfactors hmodel
    exact ⟨_, hcost, hregular.normSq_bias⟩

/-- Residuals with two axes and with one, the second on a key that it uses twice. -/
theorem Graph.cost_eq_normSq_bias_outer :
    let s : Assignment ℝ := ⟨[(1, ⟨.line, [2], rfl⟩), (2, ⟨.plane, [1, 4], rfl⟩)]⟩
    let fs : List (ResidualFactor ℝ) :=
      [⟨"outer", [2, 1], .outer 2 2⟩, ⟨"loop", [2, 2], .between [1] 5 2 2⟩]
    s.Reachable ∧ s.AtRest ∧ ∃ model, (ofResiduals fs).linearize s = .ok model ∧
      (ofResiduals fs).cost s = .ok 339 ∧ model.bias.normSq = .ok 339 := by
  intro s fs
  have hs : s.Reachable := .of_nodup (by decide)
  have hv : s.IsVector := by simp [s, Assignment.IsVector, Kind.line, Kind.plane, Kind.IsVector]
  have hkeys : ∀ f ∈ fs, ∀ key ∈ f.keys, ∃ x, s.find key = .ok x := by
    simp only [← Assignment.mem_keys]
    decide
  have hfs : ∀ f ∈ fs, f.EvaluatesAt s := by
    intro f hf
    rcases List.mem_cons.1 hf with rfl | hf'
    · exact ⟨List.cons_ne_nil _ _, hkeys _ hf, _, rfl, List.cons_ne_nil _ _⟩
    · rw [List.mem_singleton] at hf'
      subst hf'
      exact ⟨List.cons_ne_nil _ _, hkeys _ hf, _, rfl, List.cons_ne_nil _ _⟩
  obtain ⟨-, hmodels, hcosts⟩ := cost_eq_normSq_bias hs hv.atRest fs
  obtain ⟨model, hmodel⟩ := hmodels.2 hfs
  obtain ⟨c, hc, hbias⟩ := hcosts model hmodel
  have hvalue : c = 339 := by
    cases hc
    change 0 + (1 * 1 * (1 * 1) + (1 * 4 * (1 * 4) + (4 * 1 * (4 * 1) + (4 * 4 * (4 * 4) + 0)))) +
      ((1 - 1 - 1) * 5 * ((1 - 1 - 1) * 5) + ((4 - 4 - 1) * 5 * ((4 - 4 - 1) * 5) + 0)) = (339 : ℝ)
    norm_num
  exact ⟨hs, hv.atRest, model, hmodel, hvalue ▸ hc, hvalue ▸ hbias⟩

end LeastSquares
