import LeastSquares.Proofs.Linearization
import LeastSquares.Proofs.Shapes
import Mathlib.Data.List.Dedup

/-!
# Occurrences of keys

The residual of a factor is differentiated with one tangent vector for each occurrence of a key: the
variables under the keys are replaced, one after the other, by what they become along the vectors
(`perturbAlong`). Where a key occurs several times the last motion replaces the earlier ones
(`find_perturbAlong`). So along a vector that moves one coordinate of one occurrence alone
(`Assignment.nudge`), nothing happens if the key occurs again (`perturbAlong_nudge_earlier`);
otherwise the assignment is what a motion along the joint tangent vector of that coordinate makes of
it (`perturbAlong_nudge_last`).

The inner product of two joint tangent vectors is the sum of those of their parts
(`Assignment.sum_dot_part`).
-/

namespace LeastSquares

variable {K : Type} {s t u : Assignment K}

/-- Replaces variables, one key after the other, by what the variables of `s` become along the
tangent vectors beside the keys. -/
def perturbAlong [Add K] [Elementary K] (s : Assignment K) :
    List (Int × List K) → Assignment K → Except Error (Assignment K)
  | [], t => .ok t
  | (key, d) :: rest, t => do
    let x ← s.find key
    let moved ← x.move (.ofList d)
    let t ← t.set key moved none
    perturbAlong s rest t

/-! ## Motions of single coordinates -/

/-- The tangent vector along which the variable under a key stays in place, beside the key. -/
def Assignment.still [Zero K] (s : Assignment K) (key : Int) : Int × List K :=
  match s.find key with
  | .ok x => (key, List.replicate x.kind.dimension 0)
  | .error _ => (key, [])

theorem Assignment.still_eq [Zero K] {key : Int} {x : Variable K} (hx : s.find key = .ok x) :
    s.still key = (key, List.replicate x.kind.dimension 0) := by
  rw [still, hx]

@[simp] theorem Assignment.fst_still [Zero K] (s : Assignment K) (key : Int) :
    (s.still key).1 = key := by
  unfold still
  split <;> rfl

theorem Assignment.lookup_still [Zero K] (s : Assignment K) (keys : List Int) (key : Int) :
    (keys.map s.still).reverse.lookup key =
      if key ∈ keys then some (s.still key).2 else none := by
  have hmap : (keys.map s.still).reverse = keys.reverse.map fun k => (k, (s.still k).2) := by
    rw [← List.map_reverse]
    exact List.map_congr_left fun k _ => Prod.ext (s.fst_still k) rfl
  rw [hmap]
  split
  · rename_i hkey
    exact List.lookup_graph _ (List.mem_reverse.2 hkey)
  · rename_i hkey
    refine List.lookup_eq_none_iff.2 (List.forall_mem_map.2 fun k hk => ?_)
    exact bne_iff_ne.2 fun h => hkey (h ▸ List.mem_reverse.1 hk)

/-- A variable stays in place. -/
theorem Assignment.map_translate_still [AddMonoid K] (s : Assignment K) (key : Int) :
    (s.find key).map (·.translate (s.still key).2) = s.find key := by
  unfold still
  cases s.find key with
  | error e => rfl
  | ok x => exact congrArg Except.ok (x.translate_zeros _)

/-- The tangent vectors of the occurrences of keys that are zero but for one coordinate of one
occurrence. -/
def Assignment.nudge [Zero K] (s : Assignment K) (keys : List Int) (j l : Nat) (h : K) :
    List (Int × List K) := (keys.map s.still).modify j fun m => (m.1, m.2.set l h)

theorem Assignment.nudge_eq [Zero K] {keys : List Int} {j : Nat} (hj : j < keys.length)
    {x : Variable K} (hx : s.find keys[j] = .ok x) (l : Nat) (h : K) :
    s.nudge keys j l h = (keys.take j).map s.still ++
      (keys[j], (List.replicate x.kind.dimension 0).set l h) ::
        (keys.drop (j + 1)).map s.still := by
  have hlt : j < (keys.map s.still).length := by simpa using hj
  have hget : (keys.map s.still)[j] = (keys[j], List.replicate x.kind.dimension 0) := by
    rw [List.getElem_map, still_eq hx]
  rw [nudge, List.modify_eq_take_cons_drop hlt, hget, List.map_take, List.map_drop]

/-- What the last occurrence of a key is moved along. -/
theorem Assignment.lookup_nudge [Zero K] {keys : List Int} {j : Nat} (hj : j < keys.length)
    {x : Variable K} (hx : s.find keys[j] = .ok x) (l : Nat) (h : K) (key : Int) :
    (s.nudge keys j l h).reverse.lookup key =
      if key ∈ keys.drop (j + 1) then some (s.still key).2
      else if key = keys[j] then some ((List.replicate x.kind.dimension 0).set l h)
      else if key ∈ keys.take j then some (s.still key).2 else none := by
  rw [nudge_eq hj hx, List.reverse_append, List.reverse_cons, List.append_assoc,
    List.lookup_append, lookup_still, List.singleton_append, List.lookup_cons, lookup_still]
  by_cases hlater : key ∈ keys.drop (j + 1)
  · rw [if_pos hlater, if_pos hlater, Option.some_or]
  · rw [if_neg hlater, if_neg hlater, Option.none_or]
    by_cases hkey : key = keys[j]
    · rw [if_pos hkey, hkey, beq_self_eq_true]
    · rw [if_neg hkey, beq_false_of_ne hkey]

/-! ## The last motion counts -/

namespace Assignment

theorem lookup_replace (key : Int) (x : Variable K) (entries : List (Int × Variable K))
    (key' : Int) : (replace key x entries).lookup key' =
      if key' = key then (entries.lookup key').map fun _ => x else entries.lookup key' := by
  induction entries with
  | nil => simp [replace]
  | cons e rest ih =>
    obtain ⟨k, y⟩ := e
    rw [replace, List.map_cons, ← replace]
    by_cases hkey : key' = k
    · by_cases hk : k = key <;> simp [hkey, hk]
    · have hne : (key' == k) = false := beq_false_of_ne hkey
      by_cases hk : k = key
      · subst hk
        simp [List.lookup_cons, hkey, hne, ih]
      · simp [List.lookup_cons, hk, hne, ih]

/-- A replacement is found under its key, and what was stored under the others. -/
theorem find_set {key : Int} {x : Variable K} {kind? : Option Kind}
    (h : s.set key x kind? = .ok t) (key' : Int) :
    t.find key' = if key' = key then .ok x else s.find key' := by
  obtain ⟨⟨y, hy, -, -⟩, rfl⟩ := set_eq_ok.1 h
  rw [find, lookup, lookup_replace]
  by_cases hkey : key' = key
  · rw [if_pos hkey, if_pos hkey, hkey, lookup_of_find hy]
    rfl
  · rw [if_neg hkey, if_neg hkey]
    rfl

end Assignment

section
variable [AddMonoid K] [Elementary K]

/-- What replaces variables by motions of their own is not refused, and of several motions under a
key the last one counts. -/
theorem find_perturbAlong (hnodup : s.keys.Nodup) (hs : s.IsVector) {ms : List (Int × List K)}
    (hms : ∀ m ∈ ms, ∃ x, s.find m.1 = .ok x ∧ m.2.length = x.kind.dimension)
    (ht : t.shape = s.shape) :
    ∃ u, perturbAlong s ms t = .ok u ∧ u.shape = s.shape ∧
      ∀ key, u.find key = match ms.reverse.lookup key with
        | some d => (s.find key).map (·.translate d)
        | none => t.find key := by
  induction ms generalizing t with
  | nil => exact ⟨t, rfl, ht, fun key => rfl⟩
  | cons m ms ih =>
    obtain ⟨key, d⟩ := m
    obtain ⟨x, hx, hd⟩ := hms _ (List.mem_cons_self ..)
    have hkeys : t.keys.Nodup := by
      rw [Assignment.keys_eq_of_shape ht]
      exact hnodup
    -- the variable that is replaced is of the kind of the one it was at first
    obtain ⟨y, hy⟩ : ∃ y, t.get key x.kind = .ok y := by
      rw [Assignment.exists_get_eq_ok hkeys, ht]
      exact (Assignment.exists_get_eq_ok hnodup).1 ⟨x, Assignment.get_eq_ok.2 ⟨hx, rfl⟩⟩
    obtain ⟨hy, hkind⟩ := Assignment.get_eq_ok.1 hy
    have hset : t.set key (x.translate d) none =
        .ok ⟨Assignment.replace key (x.translate d) t.entries⟩ :=
      Assignment.set_eq_ok.2 ⟨⟨y, hy, by simp, hkind.symm⟩, rfl⟩
    obtain ⟨u, hu, hshape, hfind⟩ := ih (fun m hm => hms m (List.mem_cons_of_mem _ hm))
      ((Assignment.shape_set hkeys hset).trans ht)
    refine ⟨u, ?_, hshape, fun key' => ?_⟩
    · simp only [perturbAlong, hx, Variable.move_eq (hs.kind_find hx) hd, hset, bind, Except.bind]
      exact hu
    · rw [hfind, List.reverse_cons, List.lookup_append, List.lookup_cons, List.lookup_nil]
      cases ms.reverse.lookup key' with
      | some d' => rfl
      | none =>
        rw [Option.none_or]
        dsimp only
        rw [Assignment.find_set hset]
        by_cases hkey : key' = key
        · rw [if_pos hkey, hkey, beq_self_eq_true, hx]
          rfl
        · rw [if_neg hkey, beq_false_of_ne hkey]

/-- Along the vectors that are zero but for one coordinate of one occurrence of a key, the variable
is moved if the key does not occur again, and all others stay in place. -/
theorem find_nudge (hnodup : s.keys.Nodup) (hs : s.IsVector) {keys : List Int}
    (hkeys : ∀ key ∈ keys, ∃ x, s.find key = .ok x) {j : Nat} (hj : j < keys.length)
    {x : Variable K} (hx : s.find keys[j] = .ok x) (l : Nat) (h : K) :
    ∃ u, perturbAlong s (s.nudge keys j l h) s = .ok u ∧ u.shape = s.shape ∧
      ∀ key, u.find key = if key = keys[j] ∧ keys[j] ∉ keys.drop (j + 1) then
        .ok (x.translate ((List.replicate x.kind.dimension 0).set l h)) else s.find key := by
  have hstill : ∀ m ∈ keys.map s.still,
      ∃ y, s.find m.1 = .ok y ∧ m.2.length = y.kind.dimension := by
    refine List.forall_mem_map.2 fun key hkey => ?_
    obtain ⟨y, hy⟩ := hkeys key hkey
    rw [Assignment.still_eq hy]
    exact ⟨y, hy, List.length_replicate⟩
  have hnudge : ∀ m ∈ s.nudge keys j l h,
      ∃ y, s.find m.1 = .ok y ∧ m.2.length = y.kind.dimension := by
    rw [Assignment.nudge_eq hj hx]
    intro m hm
    rcases List.mem_append.1 hm with hm | hm
    · exact hstill m (List.map_subset _ (List.take_subset _ _) hm)
    · rcases List.mem_cons.1 hm with rfl | hm
      · exact ⟨x, hx, by simp⟩
      · exact hstill m (List.map_subset _ (List.drop_subset _ _) hm)
  obtain ⟨u, hu, hshape, hfind⟩ := find_perturbAlong hnodup hs hnudge rfl
  refine ⟨u, hu, hshape, fun key => ?_⟩
  rw [hfind, Assignment.lookup_nudge hj hx]
  by_cases hlater : key ∈ keys.drop (j + 1)
  · have hnot : ¬(key = keys[j] ∧ keys[j] ∉ keys.drop (j + 1)) := fun h => h.2 (h.1 ▸ hlater)
    rw [if_pos hlater, if_neg hnot]
    exact s.map_translate_still key
  · rw [if_neg hlater]
    by_cases hkey : key = keys[j]
    · have hlast : keys[j] ∉ keys.drop (j + 1) := hkey ▸ hlater
      rw [if_pos hkey, hkey, if_pos ⟨rfl, hlast⟩, hx]
      rfl
    · have hnot : ¬(key = keys[j] ∧ keys[j] ∉ keys.drop (j + 1)) := fun h => hkey h.1
      rw [if_neg hkey, if_neg hnot]
      by_cases hearlier : key ∈ keys.take j
      · rw [if_pos hearlier]
        exact s.map_translate_still key
      · rw [if_neg hearlier]

end

/-! ## Coordinates of the joint tangent space -/

namespace Assignment

/-- Assignments of one shape that hold the same are equal. -/
theorem eq_of_find (hs : s.keys.Nodup) (hshape : t.shape = s.shape)
    (h : ∀ key ∈ s.keys, t.find key = s.find key) : t = s := by
  have hkeys := keys_eq_of_shape hshape
  have hmap : ∀ u : Assignment K, u.keys.Nodup →
      u.entries.map (fun e => (e.1, (.ok e.2 : Except Error (Variable K)))) =
        u.keys.map fun key => (key, u.find key) := by
    intro u hu
    rw [keys, List.map_map]
    exact List.map_congr_left fun e he => congrArg (Prod.mk e.1) (find_of_mem hu he).symm
  have hinjective : Function.Injective
      fun e : Int × Variable K => (e.1, (.ok e.2 : Except Error (Variable K))) := by
    rintro ⟨k, x⟩ ⟨k', x'⟩ ⟨⟩
    rfl
  refine congrArg Assignment.mk (List.map_injective_iff.2 hinjective ?_)
  rw [hmap s hs, hmap t (hkeys ▸ hs), hkeys]
  exact List.map_congr_left fun key hkey => congrArg (Prod.mk key) (h key hkey)

section
variable [Zero K]

/-- The coordinates of a variable are coordinates of the joint tangent space, labelled by its
key. -/
theorem exists_label {key : Int} {x : Variable K} (hx : s.find key = .ok x) {l : Nat}
    (hl : l < x.kind.dimension) :
    ∃ p : Fin s.dimension, s.labels[p.1]? = some (key, l) ∧
      ∀ g : Fin s.dimension → K, (s.part (List.ofFn g) key).getD l 0 = g p := by
  obtain ⟨before, after, hsplit, hbefore⟩ := exists_split hx
  have hlabel := labels_getElem? hsplit hl
  have hp : extent before + l < s.dimension := by
    rw [← length_labels s]
    exact (List.getElem?_eq_some_iff.1 hlabel).1
  refine ⟨⟨_, hp⟩, hlabel, fun g => ?_⟩
  rw [part_eq_take hsplit hbefore List.length_ofFn, List.getD_eq_getElem?_getD,
    List.getElem?_take_of_lt hl, List.getElem?_drop]
  simp [hp]

/-- The parts of a joint tangent vector of one coordinate. -/
theorem part_single [Add K] (hs : s.keys.Nodup) {key : Int} {l : Nat} {p : Fin s.dimension}
    (hp : s.labels[p.1]? = some (key, l)) (h : K) {key' : Int} {x : Variable K}
    (hx : s.find key' = .ok x) :
    s.part (List.ofFn (Pi.single p h)) key' =
      if key' = key then (List.replicate x.kind.dimension 0).set l h
      else List.replicate x.kind.dimension 0 := by
  have hlen := length_part hx (List.length_ofFn (f := Pi.single p h))
  refine List.ext_getElem (by rw [hlen]; split <;> simp) fun l' h₁ h₂ => ?_
  have hl' : l' < x.kind.dimension := hlen ▸ h₁
  obtain ⟨p', hp', hget⟩ := exists_label hx hl'
  have heq : p' = p ↔ key' = key ∧ l' = l := by
    rw [← Fin.val_inj, ← List.getElem?_inj (by rw [length_labels]; exact p'.2) (nodup_labels hs),
      hp, hp', Option.some.injEq, Prod.mk.injEq]
  rw [← List.getD_eq_getElem _ 0 h₁, hget, Pi.single_apply]
  by_cases hkey : key' = key
  · simp [heq, hkey, List.getElem_set, eq_comm]
  · simp [heq, hkey]

end

/-- The inner product of joint tangent vectors is the sum of those of their parts. -/
theorem sum_dot_part [CommSemiring K] (hs : s.keys.Nodup) {xs ys : List K}
    (hx : xs.length = s.dimension) (hy : ys.length = s.dimension) :
    (s.keys.map fun key => Dense.dot (s.part xs key) (s.part ys key)).sum = Dense.dot xs ys := by
  -- the variables behind those that were looked at
  have hrest : ∀ before rest, s.entries = before ++ rest →
      ((rest.map (·.1)).map fun key => Dense.dot (s.part xs key) (s.part ys key)).sum =
        Dense.dot (xs.drop (extent before)) (ys.drop (extent before)) := by
    intro before rest
    induction rest generalizing before with
    | nil =>
      intro hsplit
      have hextent : extent before = s.dimension := by
        rw [dimension, hsplit, List.append_nil]
        rfl
      rw [hextent, ← hx, List.drop_length, List.map_nil, List.map_nil, List.sum_nil]
      rfl
    | cons e rest ih =>
      intro hsplit
      obtain ⟨key, x⟩ := e
      have hbefore : ∀ e ∈ before, e.1 ≠ key := by
        intro e he hkey
        rw [keys, hsplit, List.map_append, List.map_cons] at hs
        exact (List.nodup_append'.1 hs).2.2 (List.mem_map_of_mem he) (hkey ▸ List.mem_cons_self ..)
      have hlater := ih (before ++ [(key, x)]) (by rw [hsplit, List.append_assoc]; rfl)
      have hextent : extent (before ++ [(key, x)]) = extent before + x.kind.dimension := by
        rw [extent_append]
        rfl
      rw [List.map_cons, List.map_cons, List.sum_cons, hlater, hextent,
        part_eq_take hsplit hbefore hx, part_eq_take hsplit hbefore hy, ← List.drop_drop,
        ← List.drop_drop, ← Dense.dot_append (by simp [hx, hy]), List.take_append_drop,
        List.take_append_drop]
  exact hrest [] s.entries rfl

end Assignment

section
variable [AddMonoid K] [Elementary K]

/-- Along the vectors that are zero but for one coordinate of an occurrence of a key that occurs
again, nothing happens. -/
theorem perturbAlong_nudge_earlier (hnodup : s.keys.Nodup) (hs : s.IsVector) {keys : List Int}
    (hkeys : ∀ key ∈ keys, ∃ x, s.find key = .ok x) {j : Nat} (hj : j < keys.length)
    (hagain : keys[j] ∈ keys.drop (j + 1)) (l : Nat) (h : K) :
    perturbAlong s (s.nudge keys j l h) s = .ok s := by
  obtain ⟨x, hx⟩ := hkeys _ (List.getElem_mem hj)
  obtain ⟨u, hu, hshape, hfind⟩ := find_nudge hnodup hs hkeys hj hx l h
  have hsame : ∀ key ∈ s.keys, u.find key = s.find key := by
    intro key _
    rw [hfind, if_neg fun hlast => hlast.2 hagain]
  rw [hu, Assignment.eq_of_find hnodup hshape hsame]

/-- Along the vectors that are zero but for one coordinate of the last occurrence of a key, the
assignment moves as along the joint tangent vector of this coordinate. -/
theorem perturbAlong_nudge_last (hnodup : s.keys.Nodup) (hs : s.IsVector) {keys : List Int}
    (hkeys : ∀ key ∈ keys, ∃ x, s.find key = .ok x) {j : Nat} (hj : j < keys.length)
    (hlast : keys[j] ∉ keys.drop (j + 1)) {l : Nat} {p : Fin s.dimension}
    (hp : s.labels[p.1]? = some (keys[j], l)) (h : K) :
    perturbAlong s (s.nudge keys j l h) s = s.move (.ofList (List.ofFn (Pi.single p h))) := by
  obtain ⟨x, hx⟩ := hkeys _ (List.getElem_mem hj)
  obtain ⟨u, hu, hshape, hfind⟩ := find_nudge hnodup hs hkeys hj hx l h
  have hd : (List.ofFn (Pi.single p h : Fin s.dimension → K)).length = s.dimension :=
    List.length_ofFn
  rw [hu, Assignment.move_eq hs hd]
  have hmove := Assignment.move_eq hs hd
  refine congrArg Except.ok (Assignment.eq_of_find ?_ ?_ fun key hkey => ?_)
  · rwa [Assignment.keys_translate]
  · rw [hshape, Assignment.shape_move hmove]
  · rw [Assignment.keys_translate, Assignment.mem_keys] at hkey
    obtain ⟨y, hy⟩ := hkey
    obtain ⟨-, -, -, -, htranslate⟩ := Assignment.find_translate hy
    rw [hfind, htranslate _ hd, Assignment.part_single hnodup hp h hy]
    by_cases heq : key = keys[j]
    · rw [heq, hx] at hy
      cases hy
      rw [if_pos ⟨heq, hlast⟩, if_pos heq]
    · rw [if_neg fun h => heq h.1, if_neg heq, hy, y.translate_zeros]

end

end LeastSquares
