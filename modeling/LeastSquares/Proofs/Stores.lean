import LeastSquares.Proofs.Occurrences
import LeastSquares.Proofs.Sessions

/-!
# The assignments of a workspace

An assignment of a workspace keeps, for each of its variables, the objects that are the key, the
variable and its span. It keeps its books where these objects are what the assignment says
(`Workspace.Books`): the keys are distinct and in the order of insertion, and the spans follow each
other by the dimensions of the variables, so that they tile the joint tangent space
(`Assignment.Tiles`) up to the offset that the assignment keeps. A workspace is sound where all of
its assignments keep their books (`Workspace.Sound`).

While a workspace evolves (`Workspace.Evolves`), an assignment changes its keys, kinds and spans
only where it may grow, and there only at the end (`Assignment.GrowsTo`). It does so when an
assignment is added (`Workspace.Evolves.push`) and when one is changed in place
(`Workspace.Evolves.put`), provided that the books of the new one are kept.
-/

namespace LeastSquares

open Session

/-! ## Books -/

namespace Assignment

variable {K : Type} {s t : Assignment K}

/-- The spans follow each other by the dimensions of the variables, from zero to the dimension of
the joint tangent space. -/
structure Tiles (s : Assignment K) : Prop where
  dimension_eq : s.dimension = total s.dimensions
  span_eq : ∀ i : Nat, s.layout[i]? = s.shape[i]?.map fun e : Int × Kind =>
    (e.1, ⟨total (s.dimensions.take i), total (s.dimensions.take (i + 1))⟩)
  positions_eq : s.layout.flatMap (fun e => e.2.positions) =
    (List.range s.dimension).map fun i : Nat => (i : Int)

theorem tiles (s : Assignment K) : s.Tiles :=
  ⟨s.dimension_eq_total, s.layout_getElem?, s.flatMap_positions_layout⟩

/-- The keys of an assignment, the kinds of its variables and their spans begin those of another
one. -/
structure GrowsTo (s t : Assignment K) : Prop where
  shape : s.shape <+: t.shape
  layout : s.layout <+: t.layout

/-- Two assignments of the same keys, with variables of the same kinds and of the same spans. -/
structure Alike (s t : Assignment K) : Prop where
  shape : t.shape = s.shape
  keys : t.keys = s.keys
  layout : t.layout = s.layout
  dimension : t.dimension = s.dimension

theorem GrowsTo.refl (s : Assignment K) : s.GrowsTo s := ⟨List.prefix_rfl, List.prefix_rfl⟩

theorem GrowsTo.trans {u : Assignment K} (h : s.GrowsTo t) (h' : t.GrowsTo u) : s.GrowsTo u :=
  ⟨h.shape.trans h'.shape, h.layout.trans h'.layout⟩

theorem Alike.refl (s : Assignment K) : s.Alike s := ⟨rfl, rfl, rfl, rfl⟩

theorem Alike.of_shape (h : t.shape = s.shape) : s.Alike t :=
  ⟨h, keys_eq_of_shape h, layout_eq_of_shape h, dimension_eq_of_shape h⟩

theorem Alike.trans {u : Assignment K} (h : s.Alike t) (h' : t.Alike u) : s.Alike u :=
  .of_shape (h'.shape.trans h.shape)

theorem Alike.growsTo (h : s.Alike t) : s.GrowsTo t :=
  ⟨h.shape ▸ List.prefix_rfl, h.layout ▸ List.prefix_rfl⟩

theorem layoutFrom_append (offset : Nat) (entries rest : List (Int × Variable K)) :
    layoutFrom offset (entries ++ rest) =
      layoutFrom offset entries ++ layoutFrom (offset + extent entries) rest := by
  induction entries generalizing offset with
  | nil => rfl
  | cons e entries ih =>
    rw [List.cons_append, layoutFrom, ih, layoutFrom, List.cons_append, Nat.add_assoc]
    rfl

theorem keys_insert (s : Assignment K) (key : Int) (x : Variable K) :
    (⟨s.entries ++ [(key, x)]⟩ : Assignment K).keys = s.keys ++ [key] := List.map_append

theorem shape_insert (s : Assignment K) (key : Int) (x : Variable K) :
    (⟨s.entries ++ [(key, x)]⟩ : Assignment K).shape = s.shape ++ [(key, x.kind)] :=
  List.map_append

/-- The span of a variable that is inserted lies behind the others. -/
theorem layout_insert (s : Assignment K) (key : Int) (x : Variable K) :
    (⟨s.entries ++ [(key, x)]⟩ : Assignment K).layout =
      s.layout ++ [(key, Span.ofLength s.dimension x.kind.dimension)] := by
  rw [layout, layoutFrom_append, Nat.zero_add]
  rfl

theorem dimension_insert (s : Assignment K) (key : Int) (x : Variable K) :
    (⟨s.entries ++ [(key, x)]⟩ : Assignment K).dimension = s.dimension + x.kind.dimension := by
  rw [dimension, List.map_append, total_append, dimension]
  rfl

theorem growsTo_insert (s : Assignment K) (key : Int) (x : Variable K) :
    s.GrowsTo ⟨s.entries ++ [(key, x)]⟩ :=
  ⟨s.shape_insert key x ▸ List.prefix_append .., s.layout_insert key x ▸ List.prefix_append ..⟩

end Assignment

namespace Workspace

variable {w w' : Workspace} {o : Nat} {s t : Assignment Float} {ledger : Ledger} {key : Int}
  {x : Variable Float}

/-- The objects that an assignment keeps are those of its variables: the keys, which are distinct,
the variables, and the spans, which follow each other up to the offset that it keeps. -/
structure Books (w : Workspace) (s : Assignment Float) (ledger : Ledger) : Prop where
  nodup : s.keys.Nodup
  tiles : s.Tiles
  keys_eq : ledger.slots.map (fun slot => w.objects[slot.key]?) =
    s.keys.map fun key => some (.plain (.whole key))
  points_eq : ledger.slots.map (fun slot => w.objects[slot.point]?) =
    s.entries.map fun e => some (.plain (.point e.2))
  spans_eq : ledger.slots.map (fun slot => w.objects[slot.span]?) =
    s.layout.map fun e => some (.plain (.span e.2))
  dimension_eq : ledger.dimension = s.dimension

namespace Books

theorem length_eq (h : w.Books s ledger) : ledger.slots.length = s.size := by
  have hlength := congrArg List.length h.points_eq
  rwa [List.length_map, List.length_map] at hlength

theorem empty (w : Workspace) : w.Books .empty .empty :=
  ⟨List.nodup_nil, Assignment.tiles _, rfl, rfl, rfl, rfl⟩

/-- The slot at the place of a key is found under it. -/
theorem exists_slot (h : w.Books s ledger) {i : Nat} (hkey : s.keys[i]? = some key) :
    ∃ slot, ledger.slots[i]? = some slot ∧ Session.slot s ledger key = .ok slot := by
  have hi : i < ledger.slots.length := by
    obtain ⟨hlt, -⟩ := List.getElem?_eq_some_iff.1 hkey
    rwa [h.length_eq, ← s.length_keys]
  exact ⟨ledger.slots[i], List.getElem?_eq_getElem hi,
    Assignment.lookup_zip h.nodup hkey (List.getElem?_eq_getElem hi)⟩

/-- The object at a place is the value there. -/
theorem getElem?_of_map_eq {γ : Type} {object : Slot → Nat} {values : List γ} {value : γ → Value}
    {slots : List Slot} (h : slots.map (fun slot => w.objects[object slot]?) =
      values.map fun c => some (.plain (value c))) {i : Nat} {slot : Slot} {c : γ}
    (hslot : slots[i]? = some slot) (hc : values[i]? = some c) :
    w.objects[object slot]? = some (.plain (value c)) := by
  have hget := congrArg (fun xs => xs[i]?) h
  simp only [List.getElem?_map, hslot, hc, Option.map_some] at hget
  exact Option.some.inj hget

/-- Values persist in what objects are kept. -/
theorem map_eq_of_plain (hplain : ∀ {o : Nat} {v : Value}, w.objects[o]? = some (.plain v) →
      w'.objects[o]? = some (.plain v)) {object : Slot → Nat} {γ : Type} {values : List γ}
    {value : γ → Value} {slots : List Slot} (h : slots.map (fun slot => w.objects[object slot]?) =
      values.map fun c => some (.plain (value c))) :
    slots.map (fun slot => w'.objects[object slot]?) =
      values.map fun c => some (.plain (value c)) := by
  rw [← h]
  refine List.map_congr_left fun slot hslot => ?_
  have hmem : w.objects[object slot]? ∈ values.map fun c => some (Item.plain (value c)) := by
    rw [← h]
    exact List.mem_map_of_mem hslot
  obtain ⟨c, -, hc⟩ := List.mem_map.1 hmem
  rw [← hc, hplain hc.symm]

/-- A motion of an assignment is measured by the offset that it keeps. -/
theorem moveWithin_eq (h : w.Books s ledger) (d : Tensor Float) :
    s.moveWithin ledger.dimension d = s.move d := by
  rw [h.dimension_eq, Assignment.move]

/-- Where values persist, the books are kept. -/
theorem mono (h : w.Books s ledger) (hplain : ∀ {o : Nat} {v : Value},
    w.objects[o]? = some (.plain v) → w'.objects[o]? = some (.plain v)) : w'.Books s ledger where
  nodup := h.nodup
  tiles := h.tiles
  keys_eq := map_eq_of_plain hplain h.keys_eq
  points_eq := map_eq_of_plain hplain h.points_eq
  spans_eq := map_eq_of_plain hplain h.spans_eq
  dimension_eq := h.dimension_eq

/-- A variable under a new key. -/
theorem insert (h : w.Books s ledger) (hkey : key ∉ s.keys) {slot : Slot}
    (hslot : w.objects[slot.key]? = some (.plain (.whole key)))
    (hpoint : w.objects[slot.point]? = some (.plain (.point x)))
    (hspan : w.objects[slot.span]? =
      some (.plain (.span (.ofLength ledger.dimension x.kind.dimension)))) :
    w.Books ⟨s.entries ++ [(key, x)]⟩ (ledger.insert slot x.kind.dimension) where
  nodup := by
    rw [Assignment.keys_insert]
    exact List.nodup_append'.2 ⟨h.nodup, List.nodup_singleton _, by simpa using hkey⟩
  tiles := Assignment.tiles _
  keys_eq := by
    rw [Ledger.insert, List.map_append, h.keys_eq, Assignment.keys_insert, List.map_append]
    exact congrArg _ (congrArg (fun item => [item]) hslot)
  points_eq := by
    rw [Ledger.insert, List.map_append, h.points_eq, List.map_append]
    exact congrArg _ (congrArg (fun item => [item]) hpoint)
  spans_eq := by
    rw [h.dimension_eq] at hspan
    rw [Ledger.insert, List.map_append, h.spans_eq, Assignment.layout_insert, List.map_append]
    exact congrArg _ (congrArg (fun item => [item]) hspan)
  dimension_eq := by
    rw [Ledger.insert, h.dimension_eq, Assignment.dimension_insert]

/-- Other variables of the same kinds. -/
theorem repoint (h : w.Books s ledger) (hshape : t.shape = s.shape) {slots : List Slot}
    (hkeys : slots.map (·.key) = ledger.slots.map (·.key))
    (hspans : slots.map (·.span) = ledger.slots.map (·.span))
    (hpoints : slots.map (fun slot => w.objects[slot.point]?) =
      t.entries.map fun e => some (.plain (.point e.2))) : w.Books t ⟨slots, ledger.dimension⟩ := by
  have hmap : ∀ {object : Slot → Nat}, slots.map object = ledger.slots.map object →
      slots.map (fun slot => w.objects[object slot]?) =
        ledger.slots.map fun slot => w.objects[object slot]? := by
    intro object heq
    have hread := congrArg (List.map fun o => w.objects[o]?) heq
    rwa [List.map_map, List.map_map] at hread
  have hts := Assignment.keys_eq_of_shape hshape
  refine ⟨hts ▸ h.nodup, t.tiles, ?_, hpoints, ?_, ?_⟩
  · rw [hmap hkeys, h.keys_eq, hts]
  · rw [hmap hspans, h.spans_eq, Assignment.layout_eq_of_shape hshape]
  · rw [h.dimension_eq, Assignment.dimension_eq_of_shape hshape]

/-- Another variable under a key, of the kind that is stored. -/
theorem replace (h : w.Books s ledger) {value : Nat}
    (hvalue : w.objects[value]? = some (.plain (.point x))) {kind? : Option Kind}
    (hset : s.set key x kind? = .ok t) : w.Books t (ledger.repoint s.keys key value) := by
  have hlength : s.keys.length = ledger.slots.length := by
    rw [h.length_eq, Assignment.length_keys]
  have hkeep : ∀ {γ : Type} {f : Slot → γ}, (∀ (slot : Slot) (point : Nat),
      f { slot with point := point } = f slot) →
      (ledger.repoint s.keys key value).slots.map f = ledger.slots.map f := by
    intro γ f hf
    refine List.ext_getElem (by simp [Ledger.repoint, hlength]) fun i h₁ h₂ => ?_
    simp only [Ledger.repoint, List.getElem_map, List.getElem_zipWith]
    split
    · exact hf _ _
    · rfl
  refine h.repoint (Assignment.shape_set h.nodup hset) (hkeep fun _ _ => rfl)
    (hkeep fun _ _ => rfl) ?_
  obtain ⟨-, rfl⟩ := Assignment.set_eq_ok.1 hset
  have hpoint : ∀ (i : Nat) (hi : i < ledger.slots.length) (hi' : i < s.entries.length),
      w.objects[ledger.slots[i].point]? = some (.plain (.point s.entries[i].2)) := by
    intro i hi hi'
    have hget := List.getElem_of_eq h.points_eq (i := i) (by simpa using hi)
    simpa using hget
  have hentries : s.entries.length = ledger.slots.length := h.length_eq.symm
  refine List.ext_getElem (by simp [Assignment.replace, hlength, hentries]) fun i h₁ h₂ => ?_
  have hi : i < s.entries.length := by simpa [Assignment.replace] using h₂
  have hi' : i < s.keys.length := by rwa [hlength, ← hentries]
  have hkey : s.keys[i] = s.entries[i].1 := List.getElem_map _
  simp only [List.getElem_map, List.getElem_zipWith, Assignment.replace, hkey]
  split
  · exact hvalue
  · exact hpoint i (hentries ▸ hi) hi

end Books

/-- All assignments of a workspace keep their books. -/
def Sound (w : Workspace) : Prop :=
  ∀ {o : Nat} {s : Assignment Float} {ledger : Ledger}, w.Stores o s ledger → w.Books s ledger

/-- Values persist, assignments keep their books, and those that were there have still the keys,
kinds and spans they had, and maybe more behind them where assignments may grow. -/
structure Evolves (grows : Nat → Prop) (w w' : Workspace) : Prop where
  plain : ∀ {o : Nat} {v : Value}, w.objects[o]? = some (.plain v) →
    w'.objects[o]? = some (.plain v)
  sound : w'.Sound
  stores : ∀ {o : Nat} {s : Assignment Float} {ledger : Ledger}, w.Stores o s ledger →
    ∃ s' ledger', w'.Stores o s' ledger' ∧ s.GrowsTo s' ∧ (¬grows o → s.Alike s')

namespace Evolves

variable {grows : Nat → Prop}

theorem of_frames (hw : w.Sound) (h : w.Frames w') : w.Evolves grows w' where
  plain := h.plain
  sound ho := (hw (h.stores.1 ho)).mono h.plain
  stores ho := ⟨_, _, h.stores.2 ho, .refl _, fun _ => .refl _⟩

theorem trans {w'' : Workspace} (h : w.Evolves grows w') (h' : w'.Evolves grows w'') :
    w.Evolves grows w'' where
  plain ho := h'.plain (h.plain ho)
  sound := h'.sound
  stores ho := by
    obtain ⟨s', ledger', ho', hs, halike⟩ := h.stores ho
    obtain ⟨s'', ledger'', ho'', hs', halike'⟩ := h'.stores ho'
    exact ⟨s'', ledger'', ho'', hs.trans hs', fun hgrows =>
      (halike hgrows).trans (halike' hgrows)⟩

theorem mono {grows' : Nat → Prop} (h : w.Evolves grows w') (hgrows : ∀ o, grows o → grows' o) :
    w.Evolves grows' w' where
  plain := h.plain
  sound := h.sound
  stores ho := by
    obtain ⟨s', ledger', ho', hs, halike⟩ := h.stores ho
    exact ⟨s', ledger', ho', hs, fun hnot => halike fun h => hnot (hgrows _ h)⟩

/-- A new assignment. -/
theorem push (hw : w.Sound) (hbooks : w.Books s ledger) :
    w.Evolves grows (w.push (.assignment s ledger)) := by
  have hplain : ∀ {o : Nat} {v : Value}, w.objects[o]? = some (.plain v) →
      (w.push (.assignment s ledger)).objects[o]? = some (.plain v) :=
    fun ho => getElem?_push_of_some ho _
  refine ⟨hplain, fun ho => ?_, fun ho =>
    ⟨_, _, getElem?_push_of_some ho _, .refl _, fun _ => .refl _⟩⟩
  rw [Stores, getElem?_push] at ho
  split at ho
  · cases ho
    exact hbooks.mono hplain
  · exact (hw ho).mono hplain

/-- An assignment that is changed in place. -/
theorem put (hw : w.Sound) (ho : w.Stores o s ledger) {ledger' : Ledger}
    (hbooks : w.Books t ledger') (hs : s.GrowsTo t) (halike : ¬grows o → s.Alike t) :
    w.Evolves grows (w.put o (.assignment t ledger')) := by
  have hplain : ∀ {i : Nat} {v : Value}, w.objects[i]? = some (.plain v) →
      (w.put o (.assignment t ledger')).objects[i]? = some (.plain v) := by
    intro i v hi
    rw [getElem?_put ho, if_neg]
    · exact hi
    · rintro rfl
      cases ho.symm.trans hi
  refine ⟨hplain, fun {i u rest} hi => ?_, fun {i u rest} hi => ?_⟩
  · rw [Stores, getElem?_put ho] at hi
    split at hi
    · cases hi
      exact hbooks.mono hplain
    · exact (hw hi).mono hplain
  · by_cases heq : i = o
    · subst heq
      cases ho.symm.trans hi
      exact ⟨t, ledger', stores_put ho t ledger', hs, halike⟩
    · exact ⟨u, rest, (getElem?_put ho _ i).trans ((if_neg heq).trans hi), .refl u,
        fun _ => .refl u⟩

end Evolves

end Workspace

end LeastSquares
