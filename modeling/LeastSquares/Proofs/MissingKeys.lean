import LeastSquares.Proofs.Differences
import LeastSquares.Proofs.Layouts
import LeastSquares.Proofs.LinearGraphs
import LeastSquares.Proofs.Occurrences

/-!
# Missing keys

A graph refers to variables by key, and an assignment need not store all of them. The keys of a
graph are those of its factors without repetition, in the order in which factors refer to them first
(`Graph.pairwise_keys`), so one more factor appends its new keys (`Graph.keys_add`).

The factors look their keys up one after the other, in the same order. What a computation that looks
up some keys answers is that it is refused for the first one that is missing, and for nothing else
(`Assignment.Reports`). Such computations are put together by `Assignment.Reports.bind` and
`Assignment.Reports.foldlM`, and repetitions do not matter to them (`Assignment.Reports.eraseDups`).
So linearization reports the first key of the graph that is missing, wherever the factors are
linearized whose variables are present, and so does the cost of measurements
(`Graph.linearize_missing`): where a measurement is linearized it is evaluated, since whether points
of a uniform kind have a displacement depends on their numbers of coordinates alone, which a motion
in place does not change (`Variable.Alike`).
-/

namespace LeastSquares

variable {α β γ : Type}

/-! ## First appearances -/

section
variable [DecidableEq γ]

/-- A list with one more element lists it as new if it is not there yet. -/
theorem eraseDups_concat (xs : List γ) (x : γ) :
    (xs ++ [x]).eraseDups = if x ∈ xs then xs.eraseDups else xs.eraseDups ++ [x] := by
  rw [List.eraseDups_append]
  split
  · rename_i h
    have hnone : [x].removeAll xs = [] := by simp [List.removeAll, h]
    rw [hnone, List.eraseDups_nil, List.append_nil]
  · rename_i h
    have hall : [x].removeAll xs = [x] := by simp [List.removeAll, h]
    rw [hall]
    rfl

/-- Without repetitions, a list is in the order of first appearance. -/
theorem pairwise_eraseDups (xs : List γ) :
    xs.eraseDups.Pairwise fun a b => xs.idxOf a < xs.idxOf b := by
  induction xs using List.reverseRecOn with
  | nil => exact .nil
  | append_singleton xs x ih =>
    have hkept : xs.eraseDups.Pairwise fun a b => (xs ++ [x]).idxOf a < (xs ++ [x]).idxOf b := by
      refine ih.imp_of_mem fun {a b} ha hb hlt => ?_
      rw [List.idxOf_append_of_mem (List.mem_eraseDups.1 ha),
        List.idxOf_append_of_mem (List.mem_eraseDups.1 hb)]
      exact hlt
    rw [eraseDups_concat]
    split
    · exact hkept
    · rename_i hnew
      refine List.pairwise_append.2 ⟨hkept, List.pairwise_singleton .., fun a ha b hb => ?_⟩
      obtain rfl := List.mem_singleton.1 hb
      have ha := List.mem_eraseDups.1 ha
      rw [List.idxOf_append_of_mem ha, List.idxOf_append_of_notMem hnew]
      exact (List.idxOf_lt_length_of_mem ha).trans_le (Nat.le_add_right ..)

theorem nodup_eraseDups (xs : List γ) : xs.eraseDups.Nodup :=
  (pairwise_eraseDups xs).imp fun h heq => h.ne (congrArg (xs.idxOf ·) heq)

/-- What is found first in a list is found first without repetitions. -/
theorem find?_eraseDups (p : γ → Bool) (xs : List γ) : xs.eraseDups.find? p = xs.find? p := by
  induction xs using List.reverseRecOn with
  | nil => rfl
  | append_singleton xs x ih =>
    rw [eraseDups_concat, List.find?_append]
    split
    · rename_i hx
      rw [ih]
      cases h : xs.find? p with
      | some y => rfl
      | none =>
        have hp := List.find?_eq_none.1 h x hx
        simp [hp]
    · rw [List.find?_append, ih]

end

/-! ## Reports -/

namespace Assignment

variable {s : Assignment α} {keys others : List Int} {key : Int}

/-- The first of some keys that no variable is stored under. -/
def firstMissing (s : Assignment α) (keys : List Int) : Option Int :=
  keys.find? fun key => !s.contains key

theorem firstMissing_cons (key : Int) (keys : List Int) :
    s.firstMissing (key :: keys) = if key ∈ s.keys then s.firstMissing keys else some key := by
  rw [firstMissing, List.find?_cons]
  by_cases h : key ∈ s.keys
  · simp [contains_eq_true.2 h, h, firstMissing]
  · have hnot : s.contains key = false := Bool.eq_false_iff.2 fun hc => h (contains_eq_true.1 hc)
    simp [hnot, h]

theorem firstMissing_eraseDups (keys : List Int) :
    s.firstMissing keys.eraseDups = s.firstMissing keys := find?_eraseDups ..

theorem firstMissing_eq_none : s.firstMissing keys = none ↔ ∀ key ∈ keys, key ∈ s.keys := by
  simp [firstMissing, contains_eq_true]

theorem firstMissing_eq_some (h : s.firstMissing keys = some key) : key ∈ keys ∧ key ∉ s.keys := by
  refine ⟨List.mem_of_find?_eq_some h, fun hkey => ?_⟩
  have hmissing := List.find?_some h
  rw [contains_eq_true.2 hkey] at hmissing
  cases hmissing

/-- What a computation that looks up some keys answers: it is refused for the first of them that is
missing, if one is, and for nothing else. -/
structure Reports (s : Assignment α) (keys : List Int) (result : Except Error β) : Prop where
  missing : ∀ key, s.firstMissing keys = some key → result = .error (.missingKey key)
  found : s.firstMissing keys = none → ∃ b, result = .ok b

theorem Reports.ok (b : β) : s.Reports [] (.ok b) := ⟨nofun, fun _ => ⟨b, rfl⟩⟩

theorem reports_find (key : Int) : s.Reports [key] (s.find key) := by
  constructor
  · intro key' h
    rw [firstMissing_cons] at h
    split at h
    · cases h
    · rename_i hkey
      obtain rfl := Option.some.inj h
      exact find_missing hkey
  · exact fun h => mem_keys.1 (firstMissing_eq_none.1 h key (List.mem_singleton_self key))

/-- A computation that goes on looks up the keys of both parts. -/
theorem Reports.bind {m : Except Error β} {f : β → Except Error γ} (hm : s.Reports keys m)
    (hf : ∀ b, m = .ok b → s.Reports others (f b)) : s.Reports (keys ++ others) (m >>= f) := by
  have happend : s.firstMissing (keys ++ others) =
      (s.firstMissing keys).or (s.firstMissing others) := List.find?_append ..
  constructor
  · intro key h
    rw [happend] at h
    cases hk : s.firstMissing keys with
    | some k =>
      rw [hk] at h
      rw [hm.missing k hk, ← Option.some.inj h]
      rfl
    | none =>
      obtain ⟨b, hb⟩ := hm.found hk
      rw [hk, Option.none_or] at h
      rw [hb]
      exact (hf b hb).missing key h
  · intro h
    rw [happend, Option.or_eq_none_iff] at h
    obtain ⟨b, hb⟩ := hm.found h.1
    obtain ⟨c, hc⟩ := (hf b hb).found h.2
    exact ⟨c, bind_eq_ok.2 ⟨b, hb, hc⟩⟩

/-- A computation that goes on without looking up anything. -/
theorem Reports.map {m : Except Error β} (hm : s.Reports keys m) (f : β → γ) :
    s.Reports keys (m >>= fun b => .ok (f b)) := by
  simpa using hm.bind fun b _ => .ok (f b)

/-- Variables are looked up in the order of their keys. -/
theorem reports_mapM_find (keys : List Int) : s.Reports keys (keys.mapM s.find) := by
  induction keys with
  | nil => exact .ok []
  | cons key keys ih =>
    rw [List.mapM_cons]
    exact (reports_find key).bind fun x _ => ih.map (x :: ·)

/-- A loop whose steps look up keys looks up all of them in order. -/
theorem Reports.foldlM {lookups : γ → List Int} {step : β → γ → Except Error β} {xs : List γ}
    (h : ∀ x ∈ xs, ∀ b, s.Reports (lookups x) (step b x)) (b : β) :
    s.Reports (xs.flatMap lookups) (xs.foldlM step b) := by
  induction xs generalizing b with
  | nil => exact .ok b
  | cons x xs ih =>
    rw [List.flatMap_cons, List.foldlM_cons]
    exact (h x (List.mem_cons_self ..) b).bind fun b' _ =>
      ih (fun y hy => h y (List.mem_cons_of_mem _ hy)) b'

section
variable {result : Except Error β} (h : s.Reports keys result)
include h

theorem Reports.eraseDups : s.Reports keys.eraseDups result :=
  ⟨fun key hkey => h.missing key (firstMissing_eraseDups keys ▸ hkey),
    fun hnone => h.found (firstMissing_eraseDups keys ▸ hnone)⟩

theorem Reports.eq_missingKey_iff :
    result = .error (.missingKey key) ↔ s.firstMissing keys = some key := by
  refine ⟨fun hresult => ?_, h.missing key⟩
  cases hk : s.firstMissing keys with
  | none =>
    obtain ⟨b, hb⟩ := h.found hk
    cases hb.symm.trans hresult
  | some k =>
    cases (h.missing k hk).symm.trans hresult
    rfl

theorem Reports.exists_ok_iff : (∃ b, result = .ok b) ↔ ∀ key ∈ keys, key ∈ s.keys := by
  rw [← firstMissing_eq_none]
  refine ⟨fun ⟨b, hb⟩ => ?_, h.found⟩
  cases hk : s.firstMissing keys with
  | none => rfl
  | some k => cases (h.missing k hk).symm.trans hb

theorem Reports.exists_missingKey_iff :
    (∃ key, result = .error (.missingKey key)) ↔ ∃ key ∈ keys, key ∉ s.keys := by
  constructor
  · rintro ⟨key, hkey⟩
    exact ⟨key, firstMissing_eq_some (h.eq_missingKey_iff.1 hkey)⟩
  · rintro ⟨key, hkey, hmissing⟩
    cases hk : s.firstMissing keys with
    | none => exact absurd (firstMissing_eq_none.1 hk key hkey) hmissing
    | some k => exact ⟨k, h.missing k hk⟩

end

end Assignment

/-! ## Linear models -/

section
variable [Zero α] [One α] [Add α] [Neg α] [Elementary α] {s : Assignment α}

/-- A residual that is linearized where its variables are present reports a missing one. -/
theorem ResidualFactor.reports_linearize {f : ResidualFactor α}
    (hf : (∀ key ∈ f.keys, key ∈ s.keys) → ∃ model, f.linearize s = .ok model) :
    s.Reports f.keys (f.linearize s) := by
  refine ⟨fun key hkey => ?_, fun hnone => hf (Assignment.firstMissing_eq_none.1 hnone)⟩
  rw [linearize, (Assignment.reports_mapM_find f.keys).missing key hkey]
  rfl

namespace Graph

omit [One α] [Neg α] [Elementary α] in
/-- No stack refuses a model over a joint tangent space. -/
theorem Stack.exists_push (stack : Stack α) {model : LinearModel α} {n : Nat}
    (hm : model.Over n) : ∃ stack', stack.push model = .ok stack' := by
  obtain ⟨dense, hdense, hlen⟩ := hm.regular.bias.exists_dense le_rfl
  have hblock : (⟨stack.height, stack.height + model.bias.dimension⟩ : Span).length =
      dense.length := by
    simp only [Span.length]
    omega
  have hmatrix := hm.regular.matrix.level
  exact ⟨_, bind_eq_ok.2 ⟨_, hmatrix.wellFormed.moveDown_eq hmatrix.rows_solid _,
    bind_eq_ok.2 ⟨dense, hdense, bind_eq_ok.2 ⟨_, if_pos hblock, rfl⟩⟩⟩⟩

/-- Stacking the models of residuals looks up the keys of the graph. -/
theorem reports_linearize [Mul α] {fs : List (ResidualFactor α)}
    (hfs : ∀ f ∈ fs, (∀ key ∈ f.keys, key ∈ s.keys) → ∃ model, f.linearize s = .ok model) :
    s.Reports (ofResiduals fs).keys ((ofResiduals fs).linearize s) := by
  refine Assignment.Reports.eraseDups (.map (.foldlM (fun factor hfactor stack => ?_) _) _)
  obtain ⟨f, hf, rfl⟩ := List.mem_map.1 hfactor
  have hpush : s.Reports (f.keys ++ []) (f.linearize s >>= stack.push) := by
    refine (ResidualFactor.reports_linearize (hfs f hf)).bind fun model hmodel => ?_
    obtain ⟨stack', hstack'⟩ := stack.exists_push (ResidualFactor.linearize_over hmodel)
    rw [hstack']
    exact .ok stack'
  rwa [List.append_nil] at hpush

end Graph

end

/-! ## Costs of measurements -/

/-- Points of one kind with equally many coordinates. -/
def Variable.Alike (x y : Variable α) : Prop :=
  y.kind = x.kind ∧ y.coordinates.length = x.coordinates.length

section
variable [Zero α] [Add α] [Elementary α]

/-- A motion in place keeps the kind and, of a uniform kind, the number of coordinates. -/
theorem Variable.alike_move {x y : Variable α} (hx : x.kind.Uniform α)
    (h : x.move (.ofList (List.replicate x.kind.dimension 0)) = .ok y) : x.Alike y := by
  have hykind := kind_move h
  refine ⟨hykind, ?_⟩
  obtain ⟨coordinates, hmoved, hy⟩ := bind_eq_ok.1 h
  obtain ⟨-, hcoordinates⟩ := ofCoordinates_eq_ok hy
  obtain ⟨kind, xs, hadmits⟩ := x
  cases kind with
  | vector name n =>
    have hyvec : y.kind.IsVector := hykind ▸ trivial
    exact (length_coordinates hyvec).trans ((congrArg Kind.dimension hykind).trans hadmits.symm)
  | manifold name n =>
    obtain ⟨motion, hmotion, hmoved⟩ := bind_eq_ok.1 hmoved
    cases hmoved
    rw [hcoordinates]
    exact hx.length_move hmotion

/-- Variables of uniform kinds that are moved in place stay alike. -/
theorem alike_of_perturb {s t u : Assignment α} {keys : List Int} (hs : s.Uniform)
    (h : perturb s keys t = .ok u)
    (ht : ∀ key x y, s.find key = .ok x → t.find key = .ok y → x.Alike y) :
    ∀ key x y, s.find key = .ok x → u.find key = .ok y → x.Alike y := by
  induction keys generalizing t with
  | nil =>
    cases h
    exact ht
  | cons key keys ih =>
    obtain ⟨z, hz, h⟩ := bind_eq_ok.1 h
    obtain ⟨moved, hmoved, h⟩ := bind_eq_ok.1 h
    obtain ⟨t', hset, h⟩ := bind_eq_ok.1 h
    refine ih h fun key' x y hx hy => ?_
    rw [Assignment.find_set hset] at hy
    split at hy
    · rename_i heq
      cases hy
      rw [heq, hz] at hx
      cases hx
      exact Variable.alike_move (hs _ (Assignment.mem_of_find hz)) hmoved
    · exact ht key' x y hx hy

end

namespace Traced

/-- Whether traced tensors combine depends on the shapes of their values. -/
theorem exists_combine_of_shapes [Zero α] [Add α] {f : α → α → α} {left right : α → α → α → α}
    {a b a' b' u : Traced α} (ha : a'.value.shape = a.value.shape)
    (hb : b'.value.shape = b.value.shape) (h : combine f left right a b = .ok u) :
    ∃ u', combine f left right a' b' = .ok u' ∧ u'.value.shape = u.value.shape := by
  obtain ⟨v, hv, hshape⟩ := Tensor.combine_of_shapes ha hb (value_combine h)
  obtain ⟨u', hu', rfl⟩ := exists_combine left right hv
  exact ⟨u', hu', hshape⟩

/-- So does, in a uniform kind, whether they have a displacement. -/
theorem exists_displacement [Zero α] [Add α] [Sub α] [Neg α] [Elementary α] {kind : Kind}
    (hkind : kind.Uniform α) {a b a' b' u : Traced α} (ha : a'.value.shape = a.value.shape)
    (hb : b'.value.shape = b.value.shape) (h : displacement kind a b = .ok u) :
    ∃ u', displacement kind a' b' = .ok u' ∧ u'.value.shape = u.value.shape := by
  cases kind with
  | vector name n =>
    have hsub : b.sub a = .ok u := h
    exact exists_combine_of_shapes hb ha hsub
  | manifold name n =>
    obtain ⟨d, hd, hu⟩ := bind_eq_ok.1 h
    cases hu
    obtain ⟨d', hd', hshape⟩ := hkind.displacement ha hb hd
    exact ⟨_, bind_eq_ok.2 ⟨d', hd', rfl⟩, hshape⟩

end Traced

section
variable [Zero α] [One α] [Add α] [Sub α] [Neg α] [Mul α] [Elementary α]
  {s u : Assignment α} {m : Measurement α}

omit [One α] in
/-- A measurement that is traced at variables alike the stored ones is evaluated at these. -/
theorem Measurement.exists_value (hs : s.Uniform) (hkeys : ∀ key ∈ m.keys, key ∈ s.keys)
    (halike : ∀ key x y, s.find key = .ok x → u.find key = .ok y → x.Alike y) {t : Traced α}
    (h : m.residual.trace u = .ok t) : ∃ r, m.residual.value s = .ok r := by
  have hshape : ∀ {key x y}, s.find key = .ok x → u.find key = .ok y →
      (Traced.coordinates key x).value.shape = (Traced.coordinates key y).value.shape :=
    fun hx hy => congrArg (fun n => [n]) (halike _ _ _ hx hy).2.symm
  cases m with
  | prior name key target weight =>
    simp only [residual, Residual.prior, Residual.readKind, bind_eq_ok, Assignment.get_eq_ok] at h
    obtain ⟨_, ⟨y, ⟨hy, hkind⟩, hcoordinates⟩, d, hd, -⟩ := h
    cases hcoordinates
    obtain ⟨x, hx⟩ := Assignment.mem_keys.1 (hkeys key (List.mem_singleton_self key))
    have hxkind := (halike _ _ _ hx hy).1.symm.trans hkind
    have huniform : target.kind.Uniform α := hxkind ▸ hs _ (Assignment.mem_of_find hx)
    obtain ⟨d', hd', -⟩ := Traced.exists_displacement huniform rfl (hshape hx hy) hd
    have hget := Assignment.get_eq_ok.2 ⟨hx, hxkind⟩
    simp only [residual, Residual.value, Residual.prior, Residual.readKind, hget, hd', bind,
      Except.bind]
    exact ⟨_, rfl⟩
  | between name first second difference weight =>
    simp only [residual, Residual.between, Residual.readKind, bind_eq_ok,
      Assignment.get_eq_ok] at h
    obtain ⟨y₁, hy₁, _, ⟨y₂, ⟨hy₂, hkind⟩, hcoordinates⟩, d, hd, e, he, -⟩ := h
    cases hcoordinates
    obtain ⟨x₁, hx₁⟩ := Assignment.mem_keys.1 (hkeys first (List.mem_cons_self ..))
    obtain ⟨x₂, hx₂⟩ := Assignment.mem_keys.1
      (hkeys second (List.mem_cons_of_mem first (List.mem_singleton_self second)))
    have hkind₁ := (halike _ _ _ hx₁ hy₁).1
    have hget := Assignment.get_eq_ok.2
      ⟨hx₂, (halike _ _ _ hx₂ hy₂).1.symm.trans (hkind.trans hkind₁)⟩
    rw [hkind₁] at hd
    have huniform := hs _ (Assignment.mem_of_find hx₁)
    obtain ⟨d', hd', hdshape⟩ :=
      Traced.exists_displacement huniform (hshape hx₁ hy₁) (hshape hx₂ hy₂) hd
    obtain ⟨e', he', -⟩ := Traced.exists_combine_of_shapes hdshape rfl he
    have he' : d'.sub (.constant (.ofList difference)) = .ok e' := he'
    simp only [residual, Residual.value, Residual.between, Residual.readKind, hx₁, hget, hd', he',
      bind, Except.bind]
    exact ⟨_, rfl⟩

omit [One α] in
/-- A measurement is refused for the first of its keys that is missing. -/
theorem Measurement.value_missing {key : Int} (h : s.firstMissing m.keys = some key) :
    m.residual.value s = .error (.missingKey key) := by
  cases m with
  | prior name only target weight =>
    obtain ⟨hmem, hkey⟩ := Assignment.firstMissing_eq_some h
    obtain rfl := List.mem_singleton.1 hmem
    simp only [residual, Residual.value, Residual.prior, Residual.readKind, Assignment.get,
      Assignment.find_missing hkey, bind, Except.bind]
  | between name first second difference weight =>
    rw [keys, Assignment.firstMissing_cons] at h
    split at h
    · rename_i hfirst
      obtain ⟨x, hx⟩ := Assignment.mem_keys.1 hfirst
      obtain ⟨hmem, hkey⟩ := Assignment.firstMissing_eq_some h
      obtain rfl := List.mem_singleton.1 hmem
      simp only [residual, Residual.value, Residual.between, Residual.readKind, Assignment.get, hx,
        Assignment.find_missing hkey, bind, Except.bind]
    · rename_i hfirst
      obtain rfl := Option.some.inj h
      simp only [residual, Residual.value, Residual.between, Assignment.find_missing hfirst, bind,
        Except.bind]

/-- A measurement of variables of uniform kinds reports a missing one, and where it is linearized it
is evaluated. -/
theorem Measurement.reports_value (hs : s.Uniform)
    (hm : (∀ key ∈ m.keys, key ∈ s.keys) → ∃ model, m.toResidualFactor.linearize s = .ok model) :
    s.Reports m.keys (m.residual.value s) := by
  refine ⟨fun key h => value_missing h, fun h => ?_⟩
  have hkeys := Assignment.firstMissing_eq_none.1 h
  obtain ⟨model, hmodel⟩ := hm hkeys
  obtain ⟨_, -, hmodel⟩ := bind_eq_ok.1 hmodel
  obtain ⟨u, hu, hmodel⟩ := bind_eq_ok.1 hmodel
  obtain ⟨t, ht, -⟩ := bind_eq_ok.1 hmodel
  refine exists_value hs hkeys (alike_of_perturb hs hu fun key x y hx hy => ?_) ht
  obtain rfl := Except.ok.inj (hx.symm.trans hy)
  exact ⟨rfl, rfl⟩

/-- Adding up the costs of measurements looks up the keys of the graph. -/
theorem Graph.reports_cost (hs : s.Uniform) {ms : List (Measurement α)}
    (hms : ∀ m ∈ ms, (∀ key ∈ m.keys, key ∈ s.keys) →
      ∃ model, m.toResidualFactor.linearize s = .ok model) :
    s.Reports (ofMeasurements ms).keys ((ofMeasurements ms).cost s) := by
  refine Assignment.Reports.eraseDups (.foldlM (fun factor hfactor sum => ?_) _)
  obtain ⟨m, hm, rfl⟩ := List.mem_map.1 hfactor
  exact ((Measurement.reports_value hs (hms m hm)).map fun r => Dense.normSq r.data).map (sum + ·)

end

/-! ## Graphs -/

namespace Graph

section
variable (g : Graph α)

/-- The keys of the factors one after the other, each as often as it occurs. -/
def occurrences : List Int := g.factors.flatMap (·.keys)

/-- The keys of a graph are in the order in which factors refer to them first. -/
theorem pairwise_keys : g.keys.Pairwise fun a b => g.occurrences.idxOf a < g.occurrences.idxOf b :=
  pairwise_eraseDups _

theorem nodup_keys : g.keys.Nodup := nodup_eraseDups _

/-- One more factor appends its new keys. -/
theorem keys_add (f : Factor α) :
    (g.add f).keys = g.keys ++ (f.keys.removeAll g.occurrences).eraseDups := by
  rw [keys, add, List.flatMap_append, List.flatMap_singleton, List.eraseDups_append]
  rfl

end

section
variable [Zero α] [One α] [Add α] [Sub α] [Neg α] [Mul α] [Elementary α]
  {s : Assignment α} {fs : List (ResidualFactor α)}

/-- A missing variable is reported by the order of the keys of a graph. These are the keys of its
factors without repetition, by first appearance, so that one more factor appends to them. Where
every factor is linearized whose variables are present, the graph is refused for the first of its
keys that is missing, if one is, and linearized otherwise. So is the cost of measurements, where the
kinds of the variables are uniform. -/
theorem linearize_missing
    (hfs : ∀ f ∈ fs, (∀ key ∈ f.keys, key ∈ s.keys) → ∃ model, f.linearize s = .ok model) :
    (ofResiduals fs).keys.Nodup ∧
    (∀ key, key ∈ (ofResiduals fs).keys ↔ ∃ f ∈ fs, key ∈ f.keys) ∧
    (ofResiduals fs).keys.Pairwise (fun a b =>
      (fs.flatMap (·.keys)).idxOf a < (fs.flatMap (·.keys)).idxOf b) ∧
    (∀ f : Factor α, (ofResiduals fs).keys <+: ((ofResiduals fs).add f).keys) ∧
    (∀ key, (ofResiduals fs).linearize s = .error (.missingKey key) ↔
      s.firstMissing (ofResiduals fs).keys = some key) ∧
    ((∃ key, (ofResiduals fs).linearize s = .error (.missingKey key)) ↔
      ∃ key ∈ (ofResiduals fs).keys, key ∉ s.keys) ∧
    ((∃ model, (ofResiduals fs).linearize s = .ok model) ↔
      ∀ key ∈ (ofResiduals fs).keys, key ∈ s.keys) ∧
    (s.Uniform → ∀ ms : List (Measurement α), fs = ms.map (·.toResidualFactor) →
      (∀ key, (ofResiduals fs).cost s = .error (.missingKey key) ↔
        s.firstMissing (ofResiduals fs).keys = some key) ∧
      ((∃ key, (ofResiduals fs).cost s = .error (.missingKey key)) ↔
        ∃ key ∈ (ofResiduals fs).keys, key ∉ s.keys) ∧
      ((∃ c, (ofResiduals fs).cost s = .ok c) ↔
        ∀ key ∈ (ofResiduals fs).keys, key ∈ s.keys)) := by
  have hlinearize := reports_linearize hfs
  have hflat : (ofResiduals fs).occurrences = fs.flatMap (·.keys) := by
    rw [occurrences, ofResiduals, List.flatMap_map]
    rfl
  refine ⟨nodup_keys _, fun key => ?_, hflat ▸ pairwise_keys _, fun f => ?_,
    fun key => hlinearize.eq_missingKey_iff, hlinearize.exists_missingKey_iff,
    hlinearize.exists_ok_iff, ?_⟩
  · rw [keys, ← occurrences, hflat, List.mem_eraseDups, List.mem_flatMap]
  · rw [keys_add]
    exact List.prefix_append ..
  · rintro huniform ms rfl
    have hgraph : ofResiduals (ms.map (·.toResidualFactor)) = ofMeasurements ms := by
      rw [ofResiduals, ofMeasurements, List.map_map]
      rfl
    have hcost := reports_cost huniform fun m hm => hfs _ (List.mem_map_of_mem hm)
    rw [hgraph]
    exact ⟨fun key => hcost.eq_missingKey_iff, hcost.exists_missingKey_iff, hcost.exists_ok_iff⟩

end

/-- A measured point of the line, a measured positive number, and two displacements that refer to
points which are not stored. -/
theorem linearize_missing_second :
    let s : Assignment ℝ := ⟨[(5, ⟨.line, [2], rfl⟩), (6, ⟨.positive, [3], trivial⟩)]⟩
    let ms : List (Measurement ℝ) := [.prior "pin" 5 ⟨.line, [1], rfl⟩ 1,
      .prior "scale" 6 ⟨.positive, [2], trivial⟩ 1, .between "step" 5 9 [1] 1,
      .between "leap" 8 9 [1] 1]
    let fs := ms.map (·.toResidualFactor)
    s.Reachable ∧ s.Uniform ∧
      (∀ f ∈ fs, (∀ key ∈ f.keys, key ∈ s.keys) → ∃ model, f.linearize s = .ok model) ∧
      (ofResiduals fs).keys = [5, 6, 9, 8] ∧
      (ofResiduals fs).linearize s = .error (.missingKey 9) ∧
      (ofResiduals fs).cost s = .error (.missingKey 9) := by
  intro s ms fs
  have hs : s.Reachable := .of_nodup (by decide)
  have huniform : s.Uniform := by
    simp only [s, Assignment.Uniform, List.forall_mem_cons]
    exact ⟨trivial, Kind.positive_uniform, by simp⟩
  have hrest : s.AtRest := by
    simp only [s, Assignment.AtRest, List.forall_mem_cons]
    exact ⟨Variable.move_zeros trivial, Variable.move_zero_positive rfl, by simp⟩
  have hmodel : ∀ {m : Measurement ℝ} {t : Traced ℝ}, (∀ key ∈ m.keys, key ∈ s.keys) →
      m.residual.trace s = .ok t → t.value.data ≠ [] →
      ∃ model, m.toResidualFactor.linearize s = .ok model := by
    intro m t hkeys ht hdata
    obtain ⟨blocks, model, h⟩ := hrest.exists_linearizes (f := m.toResidualFactor) hs.nodup_keys
      m.keys_ne_nil (fun key hkey => Assignment.mem_keys.1 (hkeys key hkey)) ht hdata
    exact ⟨model, ResidualFactor.linearize_eq_ok.2 ⟨_, _, _, h⟩⟩
  have hfs : ∀ f ∈ fs, (∀ key ∈ f.keys, key ∈ s.keys) → ∃ model, f.linearize s = .ok model := by
    simp only [fs, ms, List.map_cons, List.map_nil, List.forall_mem_cons]
    refine ⟨fun h => ?_, fun h => ?_, fun h => ?_, fun h => ?_, by simp⟩
    · exact hmodel h rfl (List.cons_ne_nil _ _)
    · exact hmodel h rfl (List.cons_ne_nil _ _)
    · exact absurd (h 9 (by decide)) (by decide)
    · exact absurd (h 9 (by decide)) (by decide)
  obtain ⟨-, -, -, -, hlinearize, -, -, hcost⟩ := linearize_missing hfs
  have hfirst : s.firstMissing (ofResiduals fs).keys = some 9 := by decide
  exact ⟨hs, huniform, hfs, by decide, (hlinearize 9).2 hfirst,
    ((hcost huniform ms rfl).1 9).2 hfirst⟩

end Graph

end LeastSquares
