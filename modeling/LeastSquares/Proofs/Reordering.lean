import LeastSquares.Proofs.Reachability
import Mathlib.Data.List.NodupEquivFin
import Mathlib.Data.List.Perm.Basic

/-!
# Assignments in another order

Two assignments that hold the same variables under the same keys differ only in the order of the
entries (`Assignment.Reordered`), and with it in the spans of the variables. The coordinates of the
joint tangent space are labelled by a key and a place in the tangent space of its variable
(`Assignment.labels`). Coordinates of one label correspond, so a joint tangent vector of one
assignment, its coordinates permuted, has the same parts for the other one
(`Assignment.Reordered.exists_equiv`), and moves it to an assignment that differs again only in the
order (`Assignment.Reordered.move`).
-/

namespace LeastSquares

variable {K : Type}

/-- Lists of the same distinct elements are each other's with the positions permuted. -/
theorem exists_equiv_of_perm {β : Type} [DecidableEq β] {xs ys : List β} (hx : xs.Nodup)
    (h : xs.Perm ys) : ∃ e : Fin ys.length ≃ Fin xs.length, ∀ i, xs[e i] = ys[i] := by
  have hy : ys.Nodup := h.nodup_iff.1 hx
  have hmem : ∀ y, y ∈ ys ↔ y ∈ xs := fun y => h.symm.mem_iff
  refine ⟨(hy.getEquiv ys).trans ((Equiv.subtypeEquivRight hmem).trans (hx.getEquiv xs).symm),
    fun i => ?_⟩
  simp

namespace Assignment

variable {s s₁ s₂ : Assignment K}

/-- Two assignments that hold the same variables under the same distinct keys. -/
structure Reordered (s₁ s₂ : Assignment K) : Prop where
  perm : s₁.entries.Perm s₂.entries
  nodup : s₁.keys.Nodup

/-! ## Variables -/

/-- What is found under a key stands behind entries of other keys. -/
theorem exists_split {key : Int} {x : Variable K} (h : s.find key = .ok x) :
    ∃ before after, s.entries = before ++ (key, x) :: after ∧ ∀ e ∈ before, e.1 ≠ key := by
  obtain ⟨before, after, hsplit, hbefore⟩ := List.lookup_eq_some_iff.1 (lookup_of_find h)
  refine ⟨before, after, hsplit, fun e he hkey => ?_⟩
  have hne := hbefore e he
  simp [hkey] at hne

/-- Where keys are distinct, a variable is found under its key. -/
theorem find_of_mem (hs : s.keys.Nodup) {key : Int} {x : Variable K} (h : (key, x) ∈ s.entries) :
    s.find key = .ok x := by
  obtain ⟨before, after, hsplit⟩ := List.append_of_mem h
  rw [keys, hsplit, List.map_append, List.map_cons] at hs
  have hnew := (List.nodup_append'.1 hs).2.2
  have hlookup : s.entries.lookup key = some x := by
    refine List.lookup_eq_some_iff.2 ⟨before, after, hsplit, fun e he => ?_⟩
    have hne : e.1 ≠ key := fun hkey =>
      hnew (List.mem_map_of_mem he) (hkey ▸ List.mem_cons_self ..)
    simpa using hne.symm
  rw [find, lookup, hlookup]

theorem find_eq_ok (hs : s.keys.Nodup) {key : Int} {x : Variable K} :
    s.find key = .ok x ↔ (key, x) ∈ s.entries := ⟨mem_of_find, find_of_mem hs⟩

/-- Nothing is found only for want of the key. -/
theorem error_of_find {key : Int} {e : Error} (h : s.find key = .error e) :
    e = .missingKey key := by
  unfold find lookup at h
  split at h
  · cases h
  · cases h
    rfl

/-- What is found determines an assignment of distinct keys up to the order. -/
theorem Reordered.of_find (h₁ : s₁.keys.Nodup) (h₂ : s₂.keys.Nodup)
    (h : ∀ key, s₁.find key = s₂.find key) : Reordered s₁ s₂ := by
  refine ⟨(List.perm_ext_iff_of_nodup h₁.of_map h₂.of_map).2 fun e => ?_, h₁⟩
  rw [← find_eq_ok h₁, ← find_eq_ok h₂, h]

namespace Reordered

theorem symm (h : Reordered s₁ s₂) : Reordered s₂ s₁ :=
  ⟨h.perm.symm, (h.perm.map _).nodup_iff.1 h.nodup⟩

theorem find_eq (h : Reordered s₁ s₂) (key : Int) : s₁.find key = s₂.find key := by
  cases h₁ : s₁.find key with
  | ok x => exact (find_of_mem h.symm.nodup (h.perm.mem_iff.1 (mem_of_find h₁))).symm
  | error e =>
    cases h₂ : s₂.find key with
    | ok x =>
      have hfound := find_of_mem h.nodup (h.perm.mem_iff.2 (mem_of_find h₂))
      cases h₁.symm.trans hfound
    | error e' => rw [error_of_find h₁, error_of_find h₂]

theorem dimension_eq (h : Reordered s₁ s₂) : s₂.dimension = s₁.dimension :=
  (h.perm.symm.map _).sum_eq

theorem select_eq (h : Reordered s₁ s₂) (key : Int) (kind? : Option Kind) :
    s₁.select key kind? = s₂.select key kind? := by
  cases kind? with
  | none => exact h.find_eq key
  | some kind =>
    change s₁.get key kind = s₂.get key kind
    rw [get, get, h.find_eq]

/-- A replacement keeps the order that assignments differ in. -/
theorem set (h : Reordered s₁ s₂) {key : Int} {x : Variable K} {kind? : Option Kind}
    {t₁ : Assignment K} (hset : s₁.set key x kind? = .ok t₁) :
    ∃ t₂, s₂.set key x kind? = .ok t₂ ∧ Reordered t₁ t₂ := by
  obtain ⟨current, hcurrent, hset⟩ := bind_eq_ok.1 hset
  rw [h.select_eq] at hcurrent
  split at hset
  · rename_i hkind
    cases hset
    refine ⟨⟨replace key x s₂.entries⟩, bind_eq_ok.2 ⟨current, hcurrent, if_pos hkind⟩,
      h.perm.map _, ?_⟩
    rw [keys, keys_replace]
    exact h.nodup
  · cases hset

end Reordered

/-! ## Coordinates of the joint tangent space -/

/-- The number of coordinates of consecutive variables. -/
def extent (entries : List (Int × Variable K)) : Nat :=
  total (entries.map fun e => e.2.kind.dimension)

theorem extent_append (entries rest : List (Int × Variable K)) :
    extent (entries ++ rest) = extent entries + extent rest := by
  induction entries with
  | nil => exact (Nat.zero_add _).symm
  | cons e entries ih =>
    change e.2.kind.dimension + extent (entries ++ rest) = _
    rw [ih, ← Nat.add_assoc]
    rfl

/-- The spans of variables that are found behind entries of other keys. -/
theorem lookup_layoutFrom {before after : List (Int × Variable K)} {key : Int} {x : Variable K}
    (hbefore : ∀ e ∈ before, e.1 ≠ key) (base : Nat) :
    (layoutFrom base (before ++ (key, x) :: after)).lookup key =
      some (Span.ofLength ((base + extent before : Nat) : Int) x.kind.dimension) := by
  induction before generalizing base with
  | nil => simp [layoutFrom, extent]
  | cons e before ih =>
    have hne : (key == e.1) = false := by
      simpa using (hbefore e (List.mem_cons_self ..)).symm
    have hrest := ih (fun e' he' => hbefore e' (List.mem_cons_of_mem _ he'))
      (base + e.2.kind.dimension)
    rw [List.cons_append, layoutFrom, List.lookup_cons, hne]
    rw [Nat.add_assoc] at hrest
    exact hrest

/-- The part of a variable behind entries of other keys. -/
theorem part_eq_take {before after : List (Int × Variable K)} {key : Int} {x : Variable K}
    (hsplit : s.entries = before ++ (key, x) :: after) (hbefore : ∀ e ∈ before, e.1 ≠ key)
    {d : List K} (hd : d.length = s.dimension) :
    s.part d key = (d.drop (extent before)).take x.kind.dimension := by
  have hspan : s.span key = .ok (Span.ofLength (extent before : Int) x.kind.dimension) := by
    rw [span, lookup, layout, hsplit, lookup_layoutFrom hbefore, Nat.zero_add]
  have hle : extent before + x.kind.dimension ≤ d.length := by
    change d.length = extent s.entries at hd
    rw [hd, hsplit, extent_append]
    exact Nat.add_le_add_left (Nat.le_add_right ..) _
  rw [part, hspan]
  exact Span.slice_ofLength hle

/-- The coordinates of consecutive variables in order: a key, and a place in the tangent space of
its variable. -/
def labelsOf (entries : List (Int × Variable K)) : List (Int × Nat) :=
  entries.flatMap fun e => (List.range e.2.kind.dimension).map (Prod.mk e.1)

/-- The coordinates of the joint tangent space in order. -/
def labels (s : Assignment K) : List (Int × Nat) := labelsOf s.entries

theorem length_labelsOf (entries : List (Int × Variable K)) :
    (labelsOf entries).length = extent entries := by
  induction entries with
  | nil => rfl
  | cons e entries ih =>
    rw [labelsOf, List.flatMap_cons, List.length_append, List.length_map, List.length_range]
    exact congrArg (e.2.kind.dimension + ·) ih

theorem length_labels (s : Assignment K) : s.labels.length = s.dimension := length_labelsOf _

/-- No two coordinates have one label. -/
theorem nodup_labels (hs : s.keys.Nodup) : s.labels.Nodup := by
  refine List.nodup_flatMap.2 ⟨fun e _ => ?_, ?_⟩
  · exact List.nodup_range.map (Prod.mk_right_injective e.1)
  · refine (List.pairwise_map.1 hs).imp fun {e e'} hne => ?_
    intro label hlabel hlabel'
    obtain ⟨_, -, rfl⟩ := List.mem_map.1 hlabel
    obtain ⟨_, -, heq⟩ := List.mem_map.1 hlabel'
    exact hne (congrArg Prod.fst heq).symm

/-- The labels of a variable behind other entries. -/
theorem labels_getElem? {before after : List (Int × Variable K)} {key : Int} {x : Variable K}
    (hsplit : s.entries = before ++ (key, x) :: after) {j : Nat} (hj : j < x.kind.dimension) :
    s.labels[extent before + j]? = some (key, j) := by
  have hlabels : s.labels = labelsOf before ++
      ((List.range x.kind.dimension).map (Prod.mk key) ++ labelsOf after) := by
    rw [labels, hsplit, labelsOf, List.flatMap_append, List.flatMap_cons]
    rfl
  rw [hlabels, List.getElem?_append_right (by rw [length_labelsOf]; omega), length_labelsOf,
    Nat.add_sub_cancel_left, List.getElem?_append_left (by simpa using hj)]
  simp [hj]

/-- The coordinates of two assignments correspond by their labels. -/
theorem Reordered.exists_labels (h : Reordered s₁ s₂) :
    ∃ e : Fin s₂.dimension ≃ Fin s₁.dimension, ∀ i, s₁.labels[(e i).1]? = s₂.labels[i.1]? := by
  have hlabels : s₁.labels.Perm s₂.labels := h.perm.flatMap_right _
  obtain ⟨e, he⟩ := exists_equiv_of_perm (nodup_labels h.nodup) hlabels
  refine ⟨(finCongr (length_labels s₂)).symm.trans (e.trans (finCongr (length_labels s₁))),
    fun i => ?_⟩
  have hi : i.1 < s₂.labels.length := (length_labels s₂).symm ▸ i.2
  rw [List.getElem?_eq_getElem hi]
  exact (List.getElem?_eq_getElem (e ⟨i, hi⟩).2).trans (congrArg some (he ⟨i, hi⟩))

/-- Coordinates correspond so that every variable has the same part of a joint tangent vector of one
assignment and of the vector that corresponds to it for the other one. -/
def SameParts (s₁ s₂ : Assignment K) (e : Fin s₂.dimension ≃ Fin s₁.dimension) : Prop :=
  ∀ (y : Fin s₁.dimension → K) {key : Int} {x : Variable K}, s₁.find key = .ok x →
    s₂.part (List.ofFn (y ∘ e)) key = s₁.part (List.ofFn y) key

/-- The coordinates of assignments that differ in the order correspond. -/
theorem Reordered.exists_equiv [Zero K] [Add K] (h : Reordered s₁ s₂) :
    ∃ e : Fin s₂.dimension ≃ Fin s₁.dimension, SameParts s₁ s₂ e := by
  obtain ⟨e, he⟩ := h.exists_labels
  refine ⟨e, fun y key x hx₁ => ?_⟩
  have hx₂ := hx₁
  rw [h.find_eq] at hx₂
  have hlen₁ := length_part hx₁ (List.length_ofFn (f := y))
  have hlen₂ := length_part hx₂ (List.length_ofFn (f := y ∘ e))
  obtain ⟨before₁, after₁, hsplit₁, hbefore₁⟩ := exists_split hx₁
  obtain ⟨before₂, after₂, hsplit₂, hbefore₂⟩ := exists_split hx₂
  rw [part_eq_take hsplit₁ hbefore₁ List.length_ofFn] at hlen₁ ⊢
  rw [part_eq_take hsplit₂ hbefore₂ List.length_ofFn] at hlen₂ ⊢
  refine List.ext_getElem (hlen₂.trans hlen₁.symm) fun j hj₂ hj₁ => ?_
  have hj : j < x.kind.dimension := by rwa [hlen₁] at hj₁
  simp only [List.getElem_take, List.getElem_drop, List.getElem_ofFn, Function.comp_apply]
  refine congrArg y (Fin.ext ?_)
  -- the two coordinates have one label
  have hlabel₂ := labels_getElem? hsplit₂ hj
  have hi : extent before₂ + j < s₂.dimension := by
    rw [← length_labels s₂]
    exact (List.getElem?_eq_some_iff.1 hlabel₂).1
  have hlabel : s₁.labels[(e ⟨_, hi⟩).1]? = s₁.labels[extent before₁ + j]? := by
    rw [he, hlabel₂, labels_getElem? hsplit₁ hj]
  exact (List.getElem?_inj (by rw [length_labels]; exact (e _).2) (nodup_labels h.nodup)).1 hlabel

/-! ## Motions -/

section
variable [Add K] [Elementary K]

/-- What a joint tangent vector makes of an entry. -/
def Moves (s : Assignment K) (d : List K) (e m : Int × Variable K) : Prop :=
  m.1 = e.1 ∧ e.2.move (.ofList (s.part d e.1)) = .ok m.2

/-- Where keys are distinct, entries are moved along their parts one by one. -/
theorem moveEntries_eq_ok (hs : s.keys.Nodup) {d : List K} (hd : d.length = s.dimension)
    {before rest moved : List (Int × Variable K)} (hsplit : s.entries = before ++ rest) :
    moveEntries rest (d.drop (extent before)) = .ok moved ↔
      List.Forall₂ (s.Moves d) rest moved := by
  induction rest generalizing before moved with
  | nil =>
    rw [List.forall₂_nil_left_iff]
    exact ⟨fun h => (Except.ok.inj h).symm, fun h => congrArg Except.ok h.symm⟩
  | cons e rest ih =>
    obtain ⟨key, x⟩ := e
    have hbefore : ∀ e ∈ before, e.1 ≠ key := by
      intro e he hkey
      rw [keys, hsplit, List.map_append, List.map_cons] at hs
      exact (List.nodup_append'.1 hs).2.2 (List.mem_map_of_mem he) (hkey ▸ List.mem_cons_self ..)
    have hpart := part_eq_take hsplit hbefore hd
    have hnext : d.drop (extent (before ++ [(key, x)])) =
        (d.drop (extent before)).drop x.kind.dimension := by
      rw [extent_append, List.drop_drop]
      rfl
    have hsplit' : s.entries = (before ++ [(key, x)]) ++ rest := by
      rw [hsplit, List.append_assoc, List.singleton_append]
    rw [moveEntries, bind_eq_ok, ← hpart, ← hnext]
    constructor
    · rintro ⟨y, hy, h⟩
      obtain ⟨others, hothers, h⟩ := bind_eq_ok.1 h
      cases h
      exact .cons ⟨rfl, hy⟩ ((ih hsplit').1 hothers)
    · rintro ⟨⟩
      rename_i m others hm hothers
      obtain ⟨key', y⟩ := m
      obtain ⟨rfl, hy⟩ := hm
      exact ⟨y, hy, bind_eq_ok.2 ⟨others, (ih hsplit').2 hothers, rfl⟩⟩

/-- Where keys are distinct, motion hands every variable its part of the joint tangent vector. -/
theorem move_ofList_eq_ok {t : Assignment K} (hs : s.keys.Nodup) {d : List K}
    (hd : d.length = s.dimension) :
    s.move (.ofList d) = .ok t ↔ List.Forall₂ (s.Moves d) s.entries t.entries := by
  rw [move, moveWithin, if_pos (by rw [Tensor.shape_ofList, hd]), bind_eq_ok,
    ← moveEntries_eq_ok hs hd (List.nil_append s.entries).symm]
  constructor
  · rintro ⟨moved, hmoved, ht⟩
    cases ht
    exact hmoved
  · exact fun h => ⟨t.entries, h, rfl⟩

/-- Joint tangent vectors of the same parts move assignments that differ in the order to such
assignments again. -/
theorem Reordered.move (h : Reordered s₁ s₂) {d₁ d₂ : List K} (hd₁ : d₁.length = s₁.dimension)
    (hd₂ : d₂.length = s₂.dimension)
    (hpart : ∀ {key : Int} {x : Variable K}, s₁.find key = .ok x →
      s₂.part d₂ key = s₁.part d₁ key) {t₁ : Assignment K}
    (hmove : s₁.move (.ofList d₁) = .ok t₁) :
    ∃ t₂, s₂.move (.ofList d₂) = .ok t₂ ∧ Reordered t₁ t₂ := by
  have hmoves := (move_ofList_eq_ok h.nodup hd₁).1 hmove
  -- every entry is moved alike in the other order
  obtain ⟨moved₂, hmoves₂, hperm⟩ := List.perm_comp_forall₂ h.perm.symm hmoves
  have hmoves₂ : List.Forall₂ (s₂.Moves d₂) s₂.entries moved₂ := by
    have hmem := (List.forall₂_and_left _ _).2 ⟨fun e he => he, hmoves₂⟩
    refine hmem.imp fun e m hm => ⟨hm.2.1, ?_⟩
    rw [hpart (find_of_mem h.nodup (h.perm.mem_iff.2 hm.1))]
    exact hm.2.2
  exact ⟨⟨moved₂⟩, (move_ofList_eq_ok h.symm.nodup hd₂).2 hmoves₂, hperm.symm,
    keys_move hmove ▸ h.nodup⟩

end

end Assignment

end LeastSquares
