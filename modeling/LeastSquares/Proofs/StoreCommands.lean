import LeastSquares.Proofs.Stores

/-!
# Commands on assignments

A command on assignments first reads: it resolves names and looks at objects. What it does then is
said by an equation for each of its outcomes. A variable is inserted under a new key
(`Session.exec_insertPoint`) and refused under a key that is taken
(`Session.exec_insertPoint_duplicate`), and it replaces another one (`Session.exec_replacePoint`) or
is refused for its kind (`Session.exec_replacePoint_mistyped`). A copy and a motion give a new
assignment (`Session.exec_allocateAssignment`).

Each of these commands either leaves all assignments alone or gives one, and behind it assignments
keep their books (`Workspace.Acts`), whatever the names stand for.
-/

namespace LeastSquares

open Session

/-! ## Reading -/

namespace Session

variable {α β : Type} {w w' : Workspace} {a : String} {o v : Nat} {item : Item}
  {s : Assignment Float} {ledger : Ledger}

/-- What a sequence gives is given by its second part behind the first one. -/
theorem of_exec_bind {m : Session α} {f : α → Session β} {b : β}
    (h : exec (m >>= f) w = (.ok b, w')) :
    ∃ a w₁, exec m w = (.ok a, w₁) ∧ exec (f a) w₁ = (.ok b, w') := by
  rw [exec_bind] at h
  cases hm : exec m w with
  | mk result w₁ =>
    rw [hm] at h
    cases result with
    | ok a => exact ⟨a, w₁, rfl, h⟩
    | error e => cases h

theorem of_reads_bind {m : Session α} {f : α → Session β} {b : β} (hm : Reads m)
    (h : exec (m >>= f) w = (.ok b, w')) :
    ∃ a, exec m w = (.ok a, w) ∧ exec (f a) w = (.ok b, w') := by
  obtain ⟨a, w₁, hfirst, hrest⟩ := of_exec_bind h
  have hreads := hm w
  rw [hfirst] at hreads
  cases hreads
  exact ⟨a, hfirst, hrest⟩

/-- What is read is an object, unless it is nothing. -/
theorem of_getD (h : (w.objects[v]?).getD (.plain .nothing) = item)
    (hitem : item ≠ .plain .nothing) : w.objects[v]? = some item := by
  cases hv : w.objects[v]? with
  | none =>
    rw [hv] at h
    exact absurd h.symm hitem
  | some item' =>
    rw [hv] at h
    exact congrArg some h

theorem of_exec_read (h : exec (read v) w = (.ok item, w')) (hitem : item ≠ .plain .nothing) :
    w.objects[v]? = some item := by
  rw [exec_read, Prod.mk.injEq, Except.ok.injEq] at h
  exact of_getD h.1 hitem

theorem of_exec_resolve (h : exec (resolve a) w = (.ok o, w')) : w.Names a o := by
  cases hname : w.names.lookup a with
  | none =>
    rw [exec_resolve_none hname] at h
    cases h
  | some o' =>
    rw [exec_resolve hname] at h
    cases h
    exact hname

theorem of_exec_item (h : exec (Session.item a) w = (.ok item, w'))
    (hitem : item ≠ .plain .nothing) : ∃ o, w.Names a o ∧ w.objects[o]? = some item := by
  obtain ⟨o, hresolve, hread⟩ := of_reads_bind (reads_resolve a) h
  exact ⟨o, of_exec_resolve hresolve, of_exec_read hread hitem⟩

theorem exec_item (ha : w.Names a o) (ho : w.objects[o]? = some item) :
    exec (Session.item a) w = (.ok item, w) :=
  (exec_bind_ok (exec_resolve ha) _).trans (exec_read_of ho)

theorem exec_assignment (ha : w.Names a o) (ho : w.Stores o s ledger) :
    exec (assignment a) w = (.ok (s, ledger), w) :=
  (exec_bind_ok (exec_item ha ho) _).trans rfl

theorem reads_assignment (a : String) : Reads (assignment a) := by
  refine reads_bind (reads_item a) fun item => ?_
  cases item with
  | assignment s ledger => exact reads_pure _
  | _ => exact reads_throw _

theorem of_exec_assignment (h : exec (assignment a) w = (.ok (s, ledger), w')) :
    ∃ o, w.Names a o ∧ w.Stores o s ledger := by
  obtain ⟨item, hitem, h⟩ := of_reads_bind (reads_item a) h
  cases item with
  | assignment s' ledger' =>
    cases h
    exact of_exec_item hitem (by simp)
  | _ => cases h

end Session

/-! ## Computations that act on assignments -/

namespace Workspace

/-- The workspace with new objects for a span and for a key. -/
def enter (w : Workspace) (span : Span) (key : Int) : Workspace :=
  (w.push (.plain (.span span))).push (.plain (.whole key))

theorem frames_enter (w : Workspace) (span : Span) (key : Int) : w.Frames (w.enter span key) :=
  (framed_fresh (.span span) w).trans (framed_fresh (.whole key) _)

theorem getElem?_enter_span (w : Workspace) (span : Span) (key : Int) :
    (w.enter span key).objects[w.objects.size]? = some (.plain (.span span)) := by
  refine getElem?_push_of_some ?_ _
  rw [getElem?_push, if_pos rfl]

theorem getElem?_enter_key (w : Workspace) (span : Span) (key : Int) :
    (w.enter span key).objects[w.objects.size + 1]? = some (.plain (.whole key)) :=
  (getElem?_push _ _ _).trans (if_pos (Array.size_push _).symm)

variable {w : Workspace} {grows : Nat → Prop} {m : Session Nat}

/-- A computation of an object behind which assignments keep their books: it leaves them all alone,
or it gives one. -/
structure Acts (grows : Nat → Prop) (m : Session Nat) (w : Workspace) : Prop where
  evolves : w.Evolves grows (exec m w).2
  result : w.Frames (exec m w).2 ∨
    ∃ o s ledger, (exec m w).1 = .ok o ∧ (exec m w).2.Stores o s ledger

namespace Acts

theorem of_frames (hw : w.Sound) (h : w.Frames (exec m w).2) : Acts grows m w :=
  ⟨.of_frames hw h, .inl h⟩

theorem of_stores {w' : Workspace} {o : Nat} {s : Assignment Float} {ledger : Ledger}
    (h : exec m w = (.ok o, w')) (hw : w.Evolves grows w') (ho : w'.Stores o s ledger) :
    Acts grows m w := by
  refine ⟨?_, .inr ⟨o, s, ledger, ?_⟩⟩
  · rwa [h]
  · rw [h]
    exact ⟨rfl, ho⟩

/-- A refused computation that changes nothing. -/
theorem of_error {e : Error} (hw : w.Sound) (h : exec m w = (.error e, w)) : Acts grows m w := by
  refine of_frames hw ?_
  rw [h]
  exact .refl w

/-- What is read before does not matter. -/
theorem bind {α : Type} {m : Session α} {f : α → Session Nat} (hw : w.Sound) (hm : Reads m)
    (hf : ∀ a, exec m w = (.ok a, w) → Acts grows (f a) w) : Acts grows (m >>= f) w := by
  have hreads := hm w
  cases hresult : exec m w with
  | mk result w' =>
    rw [hresult] at hreads
    cases hreads
    cases result with
    | ok a =>
      have hexec := exec_bind_ok hresult f
      obtain ⟨hevolves, hframes⟩ := hf a hresult
      exact ⟨hexec ▸ hevolves, hexec ▸ hframes⟩
    | error e => exact of_error hw (exec_bind_error hresult f)

end Acts

end Workspace

/-! ## Operations -/

namespace Session

open Workspace

variable {w : Workspace} {o v : Nat} {s t : Assignment Float} {ledger : Ledger} {key : Int}
  {x : Variable Float} {kind : Kind} {kind? : Option Kind} {grows : Nat → Prop}

/-- An object is a variable or none. -/
theorem point_or_other (w : Workspace) (v : Nat) :
    (∃ x, w.objects[v]? = some (.plain (.point x))) ∨
      ∀ x, (w.objects[v]?).getD (.plain .nothing) ≠ .plain (.point x) := by
  refine or_iff_not_imp_right.2 fun h => ?_
  obtain ⟨x, hx⟩ := not_forall.1 h
  exact ⟨x, of_getD (not_not.1 hx) (by simp)⟩

/-! ### Insertion -/

theorem exec_insertPoint_duplicate (hkey : key ∈ s.keys) (store object : Nat) :
    exec (insertPoint store s ledger key object) w = (.error (.duplicateKey key), w) := by
  rw [insertPoint, if_pos (Assignment.contains_eq_true.2 hkey)]
  rfl

theorem exec_insertPoint (hkey : key ∉ s.keys) (hv : w.objects[v]? = some (.plain (.point x)))
    (store : Nat) :
    exec (insertPoint store s ledger key v) w = (.ok (),
      (w.enter (.ofLength ledger.dimension x.kind.dimension) key).put store
        (.assignment ⟨s.entries ++ [(key, x)]⟩
          (ledger.insert ⟨w.objects.size + 1, v, w.objects.size⟩ x.kind.dimension))) := by
  have hinsert : s.insert key x = .ok ⟨s.entries ++ [(key, x)]⟩ :=
    Assignment.insert_eq_ok.2 ⟨hkey, rfl⟩
  rw [insertPoint, if_neg fun h => hkey (Assignment.contains_eq_true.1 h)]
  refine (exec_bind_ok (exec_read_of hv) _).trans ?_
  let span := Span.ofLength ledger.dimension x.kind.dimension
  have hsize : (w.push (.plain (.span span))).objects.size = w.objects.size + 1 :=
    Array.size_push _
  dsimp only
  rw [hinsert, ← hsize]
  rfl

theorem exec_insertPoint_other (hkey : key ∉ s.keys)
    (hv : ∀ x, (w.objects[v]?).getD (.plain .nothing) ≠ .plain (.point x)) (store : Nat) :
    exec (insertPoint store s ledger key v) w = (.error .noAttribute, w) := by
  rw [insertPoint, if_neg fun h => hkey (Assignment.contains_eq_true.1 h)]
  refine (exec_bind_ok (exec_read v) _).trans ?_
  split
  · rename_i x hx
    exact absurd hx (hv x)
  · rfl

/-- The books of an assignment with a new variable, behind new objects for its span and its key. -/
theorem evolves_insertPoint (hw : w.Sound) (ho : w.Stores o s ledger) (hgrows : grows o)
    (hkey : key ∉ s.keys) (hv : w.objects[v]? = some (.plain (.point x))) :
    w.Evolves grows ((w.enter (.ofLength ledger.dimension x.kind.dimension) key).put o
      (.assignment ⟨s.entries ++ [(key, x)]⟩
        (ledger.insert ⟨w.objects.size + 1, v, w.objects.size⟩ x.kind.dimension))) := by
  have hframes := w.frames_enter (.ofLength ledger.dimension x.kind.dimension) key
  have hsound : Evolves grows w _ := .of_frames hw hframes
  have hbooks : Books _ ⟨s.entries ++ [(key, x)]⟩
      (ledger.insert ⟨w.objects.size + 1, v, w.objects.size⟩ x.kind.dimension) :=
    ((hw ho).mono hframes.plain).insert hkey (w.getElem?_enter_key _ key) (hframes.plain hv)
      (w.getElem?_enter_span _ key)
  exact hsound.trans (.put hsound.sound (hframes.stores.2 ho) hbooks (s.growsTo_insert key x)
    fun h => absurd hgrows h)

theorem stores_insertPoint (ho : w.Stores o s ledger) (key : Int) (x : Variable Float)
    (ledger' : Ledger) :
    ((w.enter (.ofLength ledger.dimension x.kind.dimension) key).put o
      (.assignment ⟨s.entries ++ [(key, x)]⟩ ledger')).Stores o ⟨s.entries ++ [(key, x)]⟩ ledger' :=
  stores_put ((w.frames_enter (.ofLength ledger.dimension x.kind.dimension) key).stores.2 ho) _ _

theorem acts_insertPoint (hw : w.Sound) (ho : w.Stores o s ledger) (hgrows : grows o) :
    Acts grows (insertPoint o s ledger key v >>= fun _ => pure o) w := by
  by_cases hkey : key ∈ s.keys
  · exact .of_error hw (exec_bind_error (exec_insertPoint_duplicate hkey o v) _)
  · rcases point_or_other w v with ⟨x, hv⟩ | hv
    · exact .of_stores (exec_bind_ok (exec_insertPoint hkey hv o) _)
        (evolves_insertPoint hw ho hgrows hkey hv) (stores_insertPoint ho key x _)
    · exact .of_error hw (exec_bind_error (exec_insertPoint_other hkey hv o) _)

/-! ### Replacement -/

theorem exec_replacePoint (hv : w.objects[v]? = some (.plain (.point x)))
    (hset : s.set key x kind? = .ok t) (store : Nat) :
    exec (replacePoint store s ledger key v kind?) w = (.ok store,
      w.put store (.assignment t (ledger.repoint s.keys key v))) := by
  rw [replacePoint]
  refine (exec_bind_ok (exec_read_of hv) _).trans ?_
  dsimp only
  rw [hset]
  rfl

theorem exec_replacePoint_refused {e : Error} (hv : w.objects[v]? = some (.plain (.point x)))
    (hset : s.set key x kind? = .error e) (store : Nat) :
    exec (replacePoint store s ledger key v kind?) w = (.error e, w) := by
  rw [replacePoint]
  refine (exec_bind_ok (exec_read_of hv) _).trans ?_
  dsimp only
  rw [hset]
  rfl

/-- What is no variable replaces none: the variable that is stored is looked up before. -/
theorem exec_replacePoint_other
    (hv : ∀ x, (w.objects[v]?).getD (.plain .nothing) ≠ .plain (.point x)) (store : Nat) :
    exec (replacePoint store s ledger key v kind?) w =
      (s.select key kind? >>= fun current => .error (.wrongReplacement key current.kind.name
        ((w.objects[v]?).getD (.plain .nothing)).typeName), w) := by
  rw [replacePoint]
  refine (exec_bind_ok (exec_read v) _).trans ?_
  split
  · rename_i x hx
    exact absurd hx (hv x)
  · cases s.select key kind? <;> rfl

/-- What is stored is looked up before it is replaced. -/
theorem exec_replacePoint_unselected {e : Error} (h : s.select key kind? = .error e)
    (store : Nat) : exec (replacePoint store s ledger key v kind?) w = (.error e, w) := by
  rcases point_or_other w v with ⟨x, hv⟩ | hv
  · refine exec_replacePoint_refused hv ?_ store
    rw [Assignment.set, h]
    rfl
  · rw [exec_replacePoint_other hv, h]
    rfl

/-- A replacement is refused where either the kind that is given or the one of the variable is not
the one that is stored. -/
theorem exec_replacePoint_mistyped (hs : s.keys.Nodup) (hkey : (key, kind) ∈ s.shape)
    (h : ¬((∀ given ∈ kind?, given = kind) ∧
      ∃ x, w.objects[v]? = some (.plain (.point x)) ∧ x.kind = kind)) (store : Nat) :
    ∃ e, e.Mistyped key ∧ exec (replacePoint store s ledger key v kind?) w = (.error e, w) := by
  obtain ⟨y, hfind, rfl⟩ := Assignment.exists_find hs hkey
  by_cases hgiven : ∀ given ∈ kind?, given = y.kind
  · have hselect := Assignment.select_of_find hfind hgiven
    rcases point_or_other w v with ⟨x, hv⟩ | hv
    · have hx : x.kind ≠ y.kind := fun hx => h ⟨hgiven, x, hv, hx⟩
      refine ⟨.wrongReplacement key y.kind.name x.kind.name, .inr ⟨_, _, rfl⟩,
        exec_replacePoint_refused hv ?_ store⟩
      rw [Assignment.set, hselect]
      exact if_neg hx
    · refine ⟨.wrongReplacement key y.kind.name
        ((w.objects[v]?).getD (.plain .nothing)).typeName, .inr ⟨_, _, rfl⟩, ?_⟩
      rw [exec_replacePoint_other hv, hselect]
      rfl
  · obtain ⟨given, hmem, hne⟩ : ∃ given ∈ kind?, given ≠ y.kind := by simpa using hgiven
    obtain ⟨e, hselect, he⟩ := Assignment.select_mistyped hfind hmem hne
    exact ⟨e, he, exec_replacePoint_unselected hselect store⟩

/-- The books of an assignment with another variable under a key. -/
theorem evolves_replacePoint (hw : w.Sound) (ho : w.Stores o s ledger)
    (hv : w.objects[v]? = some (.plain (.point x))) (hset : s.set key x kind? = .ok t) :
    w.Evolves grows (w.put o (.assignment t (ledger.repoint s.keys key v))) := by
  have halike := Assignment.Alike.of_shape (Assignment.shape_set (hw ho).nodup hset)
  exact .put hw ho ((hw ho).replace hv hset) halike.growsTo fun _ => halike

theorem acts_replacePoint (hw : w.Sound) (ho : w.Stores o s ledger) :
    Acts grows (replacePoint o s ledger key v kind?) w := by
  rcases point_or_other w v with ⟨x, hv⟩ | hv
  · cases hset : s.set key x kind? with
    | ok t =>
      exact .of_stores (exec_replacePoint hv hset o) (evolves_replacePoint hw ho hv hset)
        (stores_put ho _ _)
    | error e => exact .of_error hw (exec_replacePoint_refused hv hset o)
  · refine .of_frames hw ?_
    rw [exec_replacePoint_other hv]
    exact .refl w

/-! ### Copies and motions -/

/-- New objects for variables, which take the places of the objects that were kept for them. -/
theorem exec_mapM_fresh (pairs : List ((Int × Variable Float) × Slot)) (w : Workspace) :
    ∃ (w' : Workspace) (slots : List Slot),
      exec (pairs.mapM fun pair : (Int × Variable Float) × Slot => do
        return { pair.2 with point := ← fresh (.point pair.1.2) }) w = (.ok slots, w') ∧
      w.Frames w' ∧ slots.map (·.key) = pairs.map (·.2.key) ∧
      slots.map (·.span) = pairs.map (·.2.span) ∧
      slots.map (fun slot => w'.objects[slot.point]?) =
        pairs.map fun pair => some (.plain (.point pair.1.2)) := by
  induction pairs generalizing w with
  | nil => exact ⟨w, [], rfl, .refl w, rfl, rfl, rfl⟩
  | cons pair pairs ih =>
    obtain ⟨w', slots, hexec, hframes, hkeys, hspans, hpoints⟩ :=
      ih (w.push (.plain (.point pair.1.2)))
    have hnew : (w.push (.plain (.point pair.1.2))).objects[w.objects.size]? =
        some (.plain (.point pair.1.2)) := by
      rw [getElem?_push, if_pos rfl]
    have hhead : exec (do return { pair.2 with point := ← fresh (.point pair.1.2) } : Session Slot)
        w = (.ok { pair.2 with point := w.objects.size }, w.push (.plain (.point pair.1.2))) := rfl
    refine ⟨w', { pair.2 with point := w.objects.size } :: slots, ?_, ?_, ?_, ?_, ?_⟩
    · rw [List.mapM_cons]
      exact (exec_bind_ok hhead _).trans (exec_bind_ok hexec _)
    · exact (framed_fresh (.point pair.1.2) w).trans hframes
    · rw [List.map_cons, List.map_cons, hkeys]
    · rw [List.map_cons, List.map_cons, hspans]
    · rw [List.map_cons, List.map_cons, hpoints, hframes.plain hnew]

/-- A new assignment of the keys and kinds of one that keeps its books. -/
theorem exec_allocateAssignment (hbooks : w.Books s ledger) (hshape : t.shape = s.shape) :
    ∃ (w' : Workspace) (ledger' : Ledger),
      exec (allocateAssignment t ledger) w =
        (.ok w'.objects.size, w'.push (.assignment t ledger')) ∧
      w.Frames w' ∧ w'.Books t ledger' := by
  obtain ⟨w', slots, hexec, hframes, hkeys, hspans, hpoints⟩ :=
    exec_mapM_fresh (t.entries.zip ledger.slots) w
  have hlength : ledger.slots.length = t.entries.length := by
    rw [hbooks.length_eq, ← Assignment.length_shape, ← hshape, Assignment.length_shape]
    rfl
  have hsnd : (t.entries.zip ledger.slots).map Prod.snd = ledger.slots :=
    List.map_snd_zip hlength.le
  have hfst : (t.entries.zip ledger.slots).map Prod.fst = t.entries :=
    List.map_fst_zip hlength.ge
  refine ⟨w', ⟨slots, ledger.dimension⟩, exec_bind_ok hexec _, hframes,
    (hbooks.mono hframes.plain).repoint hshape ?_ ?_ ?_⟩
  · rw [hkeys, ← congrArg (List.map fun slot => slot.key) hsnd, List.map_map]
    rfl
  · rw [hspans, ← congrArg (List.map fun slot => slot.span) hsnd, List.map_map]
    rfl
  · rw [hpoints, ← congrArg (List.map fun e => some (Item.plain (.point e.2))) hfst, List.map_map]
    rfl

theorem acts_allocate (hw : w.Sound) (hbooks : w.Books s ledger) :
    Acts grows (allocate (.assignment s ledger)) w :=
  .of_stores rfl (.push hw hbooks) (w.stores_push s ledger)

theorem acts_allocateAssignment (hw : w.Sound) (hbooks : w.Books s ledger)
    (hshape : t.shape = s.shape) : Acts grows (allocateAssignment t ledger) w := by
  obtain ⟨w', ledger', hexec, hframes, hbooks'⟩ := exec_allocateAssignment hbooks hshape
  have hevolves : w.Evolves grows w' := .of_frames hw hframes
  exact .of_stores hexec (hevolves.trans (.push hevolves.sound hbooks'))
    (w'.stores_push t ledger')

/-! ### Commands -/

variable {a value : String}

theorem acts_insert (hw : w.Sound) (hgrows : ∀ o, w.Names a o → grows o) :
    Acts grows (insert a key value) w := by
  refine .bind hw (reads_resolve a) fun o hname => .bind hw (reads_read o) fun item hread => ?_
  cases item with
  | assignment s ledger =>
    have ho : w.Stores o s ledger := of_exec_read hread (by simp)
    exact .bind hw (reads_resolve value) fun v _ =>
      acts_insertPoint hw ho (hgrows o (of_exec_resolve hname))
  | list xs =>
    have ho : w.objects[o]? = some (.list xs) := of_exec_read hread (by simp)
    dsimp only
    split
    · exact .of_error hw rfl
    · exact .bind hw (reads_resolve value) fun v _ => .of_frames hw (.putList ho _)
  | _ => exact .of_error hw rfl

theorem acts_set (hw : w.Sound) : Acts grows (Session.set a key value kind?) w := by
  refine .bind hw (reads_assignment a) fun ⟨s, ledger⟩ hread => .bind hw (reads_resolve a)
    fun o hname => .bind hw (reads_resolve value) fun v _ => acts_replacePoint hw ?_
  obtain ⟨o', hname', ho⟩ := of_exec_assignment hread
  cases (of_exec_resolve hname).symm.trans hname'
  exact ho

theorem acts_setElement (hw : w.Sound) : Acts grows (setElement a key value kind?) w := by
  refine .bind hw (reads_resolve a) fun o hname => .bind hw (reads_read o) fun item hread => ?_
  cases item with
  | assignment s ledger =>
    have ho : w.Stores o s ledger := of_exec_read hread (by simp)
    exact .bind hw (reads_resolve value) fun v _ => acts_replacePoint hw ho
  | list xs =>
    have ho : w.objects[o]? = some (.list xs) := of_exec_read hread (by simp)
    cases kind? with
    | none =>
      exact .bind hw (reads_lift _) fun i _ => .bind hw (reads_resolve value) fun v _ =>
        .of_frames hw (.putList ho _)
    | some kind => exact .of_error hw rfl
  | _ => exact .of_error hw rfl

theorem acts_copy (hw : w.Sound) : Acts grows (copy a) w := by
  refine .bind hw (reads_item a) fun item hread => ?_
  cases item with
  | assignment s ledger =>
    obtain ⟨o, -, ho⟩ := of_exec_item hread (by simp)
    exact acts_allocate hw (hw ho)
  | list xs => exact .of_frames hw (.push (by simp))
  | record fields => exact .of_frames hw (.push (by simp))
  | _ => exact .of_error hw rfl

theorem acts_move (hw : w.Sound) (delta : Source) : Acts grows (Session.move a delta) w := by
  refine .bind hw (reads_item a) fun item hread => ?_
  cases item with
  | assignment s ledger =>
    obtain ⟨o, -, ho⟩ := of_exec_item hread (by simp)
    refine .bind hw (reads_tensor _ delta) fun d _ => .bind hw (reads_lift _) fun t ht => ?_
    have hmove : s.move d = .ok t :=
      ((hw ho).moveWithin_eq d).symm.trans (congrArg Prod.fst ht)
    exact acts_allocateAssignment hw (hw ho) (Assignment.shape_move hmove)
  | plain v =>
    cases v with
    | point x =>
      refine .of_frames hw (framed_bind (reads_source delta).framed (fun d => ?_) w)
      exact framed_bind (reads_lift _).framed fun t => framed_checked _
    | _ => exact .of_error hw rfl
  | _ => exact .of_error hw rfl

end Session

end LeastSquares
