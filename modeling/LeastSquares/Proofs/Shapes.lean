import LeastSquares.Proofs.Manifolds
import LeastSquares.Proofs.Reordering

/-!
# The shape of an assignment

The shape of an assignment is the list of its keys with the kinds of their variables, in order of
insertion. Keys, spans and dimension depend on it alone (`Assignment.layout_eq_of_shape`). Each
operation does one thing to it: an insertion appends to it (`Assignment.insert_eq_ok`), while a
replacement (`Assignment.set_eq_ok`) and a motion (`Assignment.shape_move`) leave it as it is.

An assignment of accepting kinds is moved along every joint tangent vector, since every variable is
moved along any vector that is as long as its own tangent space (`Assignment.exists_move`).

The spans of an assignment follow each other without a gap: the variable at a place has the span
behind the dimensions of the variables before it (`Assignment.layout_getElem?`), and the positions
of all spans are those of the joint tangent space in order (`Assignment.flatMap_positions_layout`).

A variable is found under its key where it is of the kind that is asked for
(`Assignment.select_of_find`), and behind a motion it is found moved (`Assignment.find_move`). It is
refused for its kind (`Assignment.select_mistyped`), and a key that is not there for itself
(`Assignment.select_missing`).
-/

namespace LeastSquares

/-- The refusals of a variable that is not of the kind that is stored under a key. -/
def Error.Mistyped (key : Int) (e : Error) : Prop :=
  (∃ stored requested, e = .wrongKind key stored requested) ∨
    ∃ stored given, e = .wrongReplacement key stored given

namespace Assignment

variable {K : Type} {s t : Assignment K} {key : Int} {x : Variable K}

/-- The keys with the kinds of their variables, in order of insertion. -/
def shape (s : Assignment K) : List (Int × Kind) := s.entries.map fun e => (e.1, e.2.kind)

/-- The dimensions of the variables, in order of insertion. -/
def dimensions (s : Assignment K) : List Nat := s.shape.map (·.2.dimension)

theorem keys_eq_map_shape (s : Assignment K) : s.keys = s.shape.map (·.1) := by
  rw [shape, List.map_map]
  rfl

theorem dimension_eq_total (s : Assignment K) : s.dimension = total s.dimensions := by
  rw [dimensions, shape, List.map_map]
  rfl

@[simp] theorem length_shape (s : Assignment K) : s.shape.length = s.size := List.length_map _

@[simp] theorem length_keys (s : Assignment K) : s.keys.length = s.size := List.length_map _

/-! ## What depends on the shape alone -/

theorem keys_eq_of_shape (h : t.shape = s.shape) : t.keys = s.keys := by
  rw [keys_eq_map_shape, keys_eq_map_shape, h]

theorem dimension_eq_of_shape (h : t.shape = s.shape) : t.dimension = s.dimension := by
  rw [dimension_eq_total, dimension_eq_total, dimensions, dimensions, h]

/-- The kinds of an assignment depend on its shape. -/
theorem Accepting.of_shape [Elementary K] (hs : s.Accepting) (h : t.shape = s.shape) :
    t.Accepting := by
  intro e he
  have hmem : (e.1, e.2.kind) ∈ s.shape := h ▸ List.mem_map_of_mem he
  obtain ⟨e', he', heq⟩ := List.mem_map.1 hmem
  have hkind : e'.2.kind = e.2.kind := congrArg Prod.snd heq
  exact hkind ▸ hs e' he'

/-- The span at a place lies behind the dimensions of the variables before it. -/
theorem layoutFrom_getElem? (offset : Nat) (entries : List (Int × Variable K)) (i : Nat) :
    (layoutFrom offset entries)[i]? = entries[i]?.map fun e =>
      (e.1, Span.ofLength ((offset + extent (entries.take i) : Nat) : Int) e.2.kind.dimension) := by
  induction entries generalizing offset i with
  | nil => rfl
  | cons e rest ih =>
    cases i with
    | zero => rfl
    | succ i =>
      rw [layoutFrom, List.getElem?_cons_succ, ih, List.getElem?_cons_succ, List.take_succ_cons]
      simp only [extent, List.map_cons, total_cons, Nat.add_assoc]

/-- The span at a place: from the sum of the dimensions before it to the sum with its own. -/
theorem layout_getElem? (s : Assignment K) (i : Nat) :
    s.layout[i]? = s.shape[i]?.map fun e =>
      (e.1, ⟨total (s.dimensions.take i), total (s.dimensions.take (i + 1))⟩) := by
  have hextent : ∀ entries : List (Int × Variable K),
      extent entries = total ((entries.map fun e => (e.1, e.2.kind)).map (·.2.dimension)) := by
    intro entries
    rw [List.map_map]
    rfl
  rw [layout, layoutFrom_getElem?, shape, List.getElem?_map, Option.map_map]
  cases he : s.entries[i]? with
  | none => rfl
  | some e =>
    have htake : s.entries.take (i + 1) = s.entries.take i ++ [e] := by
      rw [List.take_add_one, he]
      rfl
    simp only [dimensions, shape, ← List.map_take, htake, ← hextent, extent_append, Span.ofLength,
      Option.map_some, Function.comp_apply, Nat.zero_add]
    simp [extent]

/-- Assignments of one shape have the same spans. -/
theorem layout_eq_of_shape (h : t.shape = s.shape) : t.layout = s.layout := by
  refine List.ext_getElem? fun i => ?_
  rw [layout_getElem?, layout_getElem?, dimensions, dimensions, h]

/-- The positions of the spans are those of the joint tangent space, in order. -/
theorem flatMap_positions_layout (s : Assignment K) :
    s.layout.flatMap (fun e => e.2.positions) =
      (List.range s.dimension).map fun i : Nat => (i : Int) := by
  have hfrom : ∀ (offset : Nat) (entries : List (Int × Variable K)),
      (layoutFrom offset entries).flatMap (fun e => e.2.positions) =
        (List.range (extent entries)).map fun i : Nat => ((offset + i : Nat) : Int) := by
    intro offset entries
    induction entries generalizing offset with
    | nil => rfl
    | cons e rest ih =>
      have hextent : extent (e :: rest) = e.2.kind.dimension + extent rest := rfl
      rw [layoutFrom, List.flatMap_cons, ih, hextent, List.range_add, List.map_append,
        List.map_map]
      congr 1
      · simp only [Span.positions, Span.length_ofLength, Nat.cast_add]
        rfl
      · refine List.map_congr_left fun i _ => ?_
        simp only [Function.comp_apply, Nat.add_assoc]
  rw [layout, hfrom]
  simp only [Nat.zero_add]
  rfl

/-! ## Operations -/

theorem contains_eq_true : s.contains key = true ↔ key ∈ s.keys := by
  rw [contains, List.lookup_isSome_iff]
  simp only [keys, List.mem_map, beq_iff_eq]
  exact exists_congr fun e => and_congr_right fun _ => eq_comm

/-- An insertion appends to the entries, under a new key. -/
theorem insert_eq_ok : s.insert key x = .ok t ↔ key ∉ s.keys ∧ t = ⟨s.entries ++ [(key, x)]⟩ := by
  rw [insert, ← contains_eq_true]
  split
  · rename_i h
    constructor
    · intro hinsert
      cases hinsert
    · exact fun hnew => absurd h hnew.1
  · rename_i h
    rw [Except.ok.injEq, eq_comm]
    exact (and_iff_right h).symm

/-- Keys are those under which something is found. -/
theorem mem_keys : key ∈ s.keys ↔ ∃ x, s.find key = .ok x := by
  constructor
  · intro h
    cases hx : s.find key with
    | ok x => exact ⟨x, rfl⟩
    | error e =>
      rw [← contains_eq_true, contains] at h
      obtain ⟨x, hlookup⟩ := Option.isSome_iff_exists.1 h
      rw [find, lookup, hlookup] at hx
      cases hx
  · rintro ⟨x, hx⟩
    exact List.mem_map.2 ⟨_, mem_of_find hx, rfl⟩

/-- The variable of a kind is found where the shape has the key with the kind. -/
theorem exists_get_eq_ok (hs : s.keys.Nodup) {kind : Kind} :
    (∃ x, s.get key kind = .ok x) ↔ (key, kind) ∈ s.shape := by
  simp only [get_eq_ok, find_eq_ok hs, shape, List.mem_map]
  constructor
  · rintro ⟨x, hx, rfl⟩
    exact ⟨_, hx, rfl⟩
  · rintro ⟨⟨key, x⟩, hx, ⟨⟩⟩
    exact ⟨x, hx, rfl⟩

/-- A replacement is of the kind that is stored, which is also the kind given, if one is. -/
theorem set_eq_ok {kind? : Option Kind} : s.set key x kind? = .ok t ↔
    (∃ y, s.find key = .ok y ∧ (∀ kind ∈ kind?, y.kind = kind) ∧ x.kind = y.kind) ∧
      t = ⟨replace key x s.entries⟩ := by
  have hselect : ∀ y, s.select key kind? = .ok y ↔
      s.find key = .ok y ∧ ∀ kind ∈ kind?, y.kind = kind := by
    intro y
    cases kind? with
    | none => simp [select]
    | some kind => simp [select, get_eq_ok]
  rw [set, bind_eq_ok]
  constructor
  · rintro ⟨y, hy, h⟩
    obtain ⟨hfind, hkind⟩ := (hselect y).1 hy
    split at h
    · rename_i hx
      cases h
      exact ⟨⟨y, hfind, hkind, hx⟩, rfl⟩
    · cases h
  · rintro ⟨⟨y, hfind, hkind, hx⟩, rfl⟩
    exact ⟨y, (hselect y).2 ⟨hfind, hkind⟩, if_pos hx⟩

/-- A replacement keeps the shape. -/
theorem shape_set (hs : s.keys.Nodup) {kind? : Option Kind} (h : s.set key x kind? = .ok t) :
    t.shape = s.shape := by
  obtain ⟨⟨y, hfind, -, hkind⟩, rfl⟩ := set_eq_ok.1 h
  rw [shape, shape, replace, List.map_map]
  refine List.map_congr_left fun e he => ?_
  simp only [Function.comp_apply]
  split
  · rename_i hkey
    -- the keys are distinct, so this is the entry that is replaced
    have he : s.find key = .ok e.2 := find_of_mem hs (hkey ▸ he)
    rw [hkey, hkind, Except.ok.inj (hfind.symm.trans he)]
  · rfl

/-- Motion keeps the shape. -/
theorem shape_move [Add K] [Elementary K] {d : Tensor K} (h : s.move d = .ok t) :
    t.shape = s.shape := by
  have hentries : ∀ {entries moved : List (Int × Variable K)} {d : List K},
      moveEntries entries d = .ok moved →
        moved.map (fun e => (e.1, e.2.kind)) = entries.map fun e => (e.1, e.2.kind) := by
    intro entries
    induction entries with
    | nil =>
      intro moved d h
      cases h
      rfl
    | cons e rest ih =>
      intro moved d h
      obtain ⟨x, hx, h⟩ := bind_eq_ok.1 h
      obtain ⟨others, hothers, h⟩ := bind_eq_ok.1 h
      cases h
      rw [List.map_cons, List.map_cons, ih hothers, Variable.kind_move hx]
  unfold Assignment.move Assignment.moveWithin at h
  split at h
  · obtain ⟨moved, hmoved, h⟩ := bind_eq_ok.1 h
    cases h
    exact hentries hmoved
  · cases h

/-- Moved entries are found under their keys. -/
theorem find_move [Add K] [Elementary K] (hs : s.keys.Nodup) {d : List K}
    (hd : d.length = s.dimension) (h : s.move (.ofList d) = .ok t) (hx : s.find key = .ok x) :
    ∃ y, x.move (.ofList (s.part d key)) = .ok y ∧ t.find key = .ok y := by
  have hmoves := (move_ofList_eq_ok hs hd).1 h
  have hmem : ∀ e ∈ s.entries, ∃ m ∈ t.entries, s.Moves d e m :=
    forall_mem_of_forall₂ hmoves.flip fun m hm e he => ⟨m, hm, he⟩
  obtain ⟨⟨_, y⟩, hm, rfl, hy⟩ := hmem _ (mem_of_find hx)
  exact ⟨y, hy, find_of_mem (keys_move h ▸ hs) hm⟩

/-! ## What is found -/

section
variable {kind : Kind} {kind? : Option Kind}

theorem find_missing (h : key ∉ s.keys) : s.find key = .error (.missingKey key) := by
  cases hx : s.find key with
  | ok x => exact absurd (mem_keys.2 ⟨x, hx⟩) h
  | error e => rw [error_of_find hx]

theorem select_missing (h : key ∉ s.keys) : s.select key kind? = .error (.missingKey key) := by
  cases kind? with
  | none => exact find_missing h
  | some kind => rw [select, get, find_missing h]; rfl

theorem exists_find (hs : s.keys.Nodup) (h : (key, kind) ∈ s.shape) :
    ∃ x, s.find key = .ok x ∧ x.kind = kind := by
  obtain ⟨⟨key, x⟩, hx, ⟨⟩⟩ := List.mem_map.1 h
  exact ⟨x, find_of_mem hs hx, rfl⟩

theorem select_of_find (h : s.find key = .ok x) (hkind : ∀ given ∈ kind?, given = x.kind) :
    s.select key kind? = .ok x := by
  cases kind? with
  | none => exact h
  | some given => exact get_eq_ok.2 ⟨h, (hkind given rfl).symm⟩

theorem select_mistyped (h : s.find key = .ok x) {given : Kind} (hgiven : given ∈ kind?)
    (hne : given ≠ x.kind) : ∃ e, s.select key kind? = .error e ∧ e.Mistyped key := by
  cases hgiven
  refine ⟨.wrongKind key x.kind.name given.name, ?_, .inl ⟨_, _, rfl⟩⟩
  rw [select, get, h]
  exact if_neg hne.symm

/-- The spans of an assignment are those of its keys, in order. -/
theorem map_fst_layout (s : Assignment K) : s.layout.map (·.1) = s.keys := by
  refine List.ext_getElem? fun i => ?_
  rw [List.getElem?_map, layout_getElem?, Option.map_map, keys_eq_map_shape, List.getElem?_map]
  rfl

/-- What stands beside a key is found under it where the keys are distinct. -/
theorem lookup_zip {γ : Type} {keys : List Int} {xs : List γ} (hkeys : keys.Nodup) {i : Nat}
    {c : γ} (hkey : keys[i]? = some key) (hx : xs[i]? = some c) :
    lookup key (keys.zip xs) = .ok c := by
  suffices h : (keys.zip xs).lookup key = some c by rw [lookup, h]
  induction keys generalizing xs i with
  | nil => cases hkey
  | cons k keys ih =>
    cases xs with
    | nil => cases hx
    | cons y xs =>
      obtain ⟨hnew, hkeys⟩ := List.nodup_cons.1 hkeys
      rw [List.zip_cons_cons, List.lookup_cons]
      cases i with
      | zero =>
        cases hkey
        cases hx
        simp
      | succ i =>
        have hmem : key ∈ keys := List.mem_of_getElem? hkey
        have hne : (key == k) = false := by simpa using fun h : key = k => hnew (h ▸ hmem)
        rw [hne]
        exact ih hkeys hkey hx

end

end Assignment

/-! ## Motions -/

section
variable {K : Type} [Add K] [Elementary K]

/-- Consecutive variables are moved along a vector that is as long as their tangent spaces together.
-/
theorem Assignment.exists_moveEntries {entries : List (Int × Variable K)}
    (hentries : ∀ e ∈ entries, e.2.kind.Accepting K) {d : List K}
    (hd : d.length = extent entries) : ∃ moved, moveEntries entries d = .ok moved := by
  induction entries generalizing d with
  | nil => exact ⟨[], rfl⟩
  | cons e rest ih =>
    obtain ⟨key, x⟩ := e
    have hextent : d.length = x.kind.dimension + extent rest := hd
    have hx : x.kind.Accepting K := hentries _ (List.mem_cons_self ..)
    obtain ⟨y, hy⟩ := Variable.exists_move hx (d := d.take x.kind.dimension) (by
      rw [List.length_take]
      omega)
    have hrest : ∀ e ∈ rest, e.2.kind.Accepting K :=
      fun e he => hentries e (List.mem_cons_of_mem _ he)
    obtain ⟨others, hothers⟩ := ih hrest (d := d.drop x.kind.dimension) (by
      rw [List.length_drop]
      omega)
    exact ⟨_, bind_eq_ok.2 ⟨y, hy, bind_eq_ok.2 ⟨others, hothers, rfl⟩⟩⟩

/-- An assignment of accepting kinds is moved along every joint tangent vector. -/
theorem Assignment.exists_move {s : Assignment K} (hs : s.Accepting) {d : List K}
    (hd : d.length = s.dimension) : ∃ t, s.move (.ofList d) = .ok t := by
  obtain ⟨moved, hmoved⟩ : ∃ moved, moveEntries s.entries d = .ok moved :=
    exists_moveEntries hs hd
  refine ⟨⟨moved⟩, ?_⟩
  rw [move, moveWithin, if_pos (by rw [Tensor.shape_ofList, hd])]
  exact bind_eq_ok.2 ⟨moved, hmoved, rfl⟩

end

end LeastSquares
