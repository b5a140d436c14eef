import LeastSquares.Proofs.StoreCommands

/-!
# Runs on assignments

A step on an assignment either gives an assignment, which is shown and named, or leaves all
assignments alone, and it leaves them alone whenever it is refused (`Step.frames_of_refused`). In
either case they keep their books, and none but one that something is inserted into changes its
keys, kinds or spans (`Step.evolves_run`).

By induction on the steps, all assignments that a run makes are sound (`Workspace.evolves_after`).
Such an assignment answers its operations by its keys and kinds (`Workspace.Answers`): an insertion
is refused under a key that is taken, a replacement under a key that is not there or for a variable
of another kind, and a variable is had as one of the kind that was inserted
(`Workspace.orderly_after`).
-/

namespace LeastSquares

open Session

/-! ## Steps -/

/-- The commands that make, fill, change, copy and move assignments. -/
def Command.OnAssignments : Command → Prop
  | .assignment | .insert _ _ _ | .set _ _ _ _ | .setElement _ _ _ _ | .copy _ | .move _ _ => True
  | _ => False

/-- The commands that replace the variable of an assignment under a key. -/
def Command.Replaces (a : String) (key : Int) (value : String) (kind? : Option Kind)
    (command : Command) : Prop :=
  command = .set a key value kind? ∨ command = .setElement a key value kind?

/-- The commands on assignments, and those that leave them alone. -/
def Command.Regular (command : Command) : Prop :=
  command.OnAssignments ∨ Framed (perform command)

namespace Step

variable {w w' : Workspace} {step : Step} {a value : String} {o v : Nat} {s : Assignment Float}
  {ledger : Ledger} {key : Int} {kind : Kind} {kind? : Option Kind} {x : Variable Float}
  {delta : Source} {shown : Shown}

/-- A step inserts something into an object. -/
def InsertsInto (step : Step) (w : Workspace) (o : Nat) : Prop :=
  ∃ a key value, step.command = .insert a key value ∧ w.Names a o

theorem run_error {e : Error} (h : exec (perform step.command) w = (.error e, w')) :
    step.run w = (.error e, w') := exec_bind_error h _

theorem run_ok (h : exec (perform step.command) w = (.ok o, w')) :
    step.run w = exec (keep step.names o) w' := exec_bind_ok h _

/-- An assignment that a step gives is shown and named. -/
theorem run_stores (h : exec (perform step.command) w = (.ok o, w')) (ho : w'.Stores o s ledger) :
    ∃ names', step.run w = (.ok (.assignment s ledger.dimension), w'.rename names') ∧
      ∀ name, step.names = .one name → (w'.rename names').Names name o := by
  obtain ⟨names', hkeep, hname⟩ := exec_keep ho step.names
  exact ⟨names', (run_ok h).trans hkeep, hname⟩

/-- A result without a name is only shown. -/
theorem run_shown {command : Command} (h : exec (perform command) w = (.ok o, w'))
    (ho : exec (view o) w' = (.ok shown, w')) :
    Step.run ⟨command, .none⟩ w = (.ok shown, w') := exec_bind_ok h _ |>.trans (exec_bind_ok ho _)

/-- To show and to name a result leaves assignments alone. -/
theorem frames_run (h : w.Frames (exec (perform step.command) w).2) :
    w.Frames (step.run w).2 := by
  cases hexec : exec (perform step.command) w with
  | mk result w' =>
    rw [hexec] at h
    cases result with
    | ok o =>
      rw [run_ok hexec]
      exact h.trans (framed_keep step.names o w')
    | error e => rwa [run_error hexec]

/-- What a step does to assignments before its result is shown and named. -/
theorem acts (hw : w.Sound) (h : step.command.Regular) :
    w.Acts (step.InsertsInto w) (perform step.command) := by
  rcases h with h | h
  · obtain ⟨command, names⟩ := step
    cases command with
    | assignment => exact acts_allocate hw (.empty w)
    | insert a key value => exact acts_insert hw fun o ho => ⟨a, key, value, rfl, ho⟩
    | set a key value kind? => exact acts_set hw
    | setElement a key value kind? => exact acts_setElement hw
    | copy a => exact acts_copy hw
    | move a delta => exact acts_move hw delta
    | _ => cases h
  · exact .of_frames hw (h w)

/-- A step grows no assignment but one that it inserts something into. -/
theorem evolves_run (hw : w.Sound) (h : step.command.Regular) :
    w.Evolves (step.InsertsInto w) (step.run w).2 := by
  obtain ⟨hevolves, hframes | ⟨o, s, ledger, hok, ho⟩⟩ := acts hw h
  · exact .of_frames hw (frames_run hframes)
  · obtain ⟨names', hrun, -⟩ := run_stores (Prod.ext hok rfl) ho
    rw [hrun]
    exact hevolves.trans (.of_frames hevolves.sound (.rename _ _))

/-- A refused step changes no assignment. -/
theorem frames_of_refused (hw : w.Sound) (h : step.command.Regular) {e : Error}
    (he : (step.run w).1 = .error e) : w.Frames (step.run w).2 := by
  obtain ⟨-, hframes | ⟨o, s, ledger, hok, ho⟩⟩ := acts hw h
  · exact frames_run hframes
  · obtain ⟨names', hrun, -⟩ := run_stores (Prod.ext hok rfl) ho
    rw [hrun] at he
    cases he

/-! ### What an assignment holds -/

theorem run_length (ha : w.Names a o) (ho : w.Stores o s ledger) :
    (Step.run ⟨.length (.name a), .none⟩ w).1 = .ok (.plain (.whole s.keys.length)) := by
  have hexec : exec (perform (.length (.name a))) w =
      (.ok w.objects.size, w.push (.plain (.whole s.size))) :=
    (exec_bind_ok (exec_resolve ha) _).trans (exec_bind_ok (exec_read_of ho) _)
  rw [run_shown hexec (exec_view_plain ((w.getElem?_push _ _).trans (if_pos rfl))), s.length_keys]

theorem run_keys (ha : w.Names a o) (ho : w.Stores o s ledger) (hbooks : w.Books s ledger) :
    (Step.run ⟨.keys a, .none⟩ w).1 = .ok (.list (s.keys.map fun key => .plain (.whole key))) := by
  let w' := w.push (.list (ledger.slots.map (·.key)))
  have hexec : exec (perform (.keys a)) w = (.ok w.objects.size, w') :=
    exec_bind_ok (exec_item ha ho) _
  have hnew : w'.objects[w.objects.size]? = some (.list (ledger.slots.map (·.key))) :=
    (w.getElem?_push _ _).trans (if_pos rfl)
  have hkeys : (ledger.slots.map (·.key)).map (fun o => w'.objects[o]?) =
      (s.keys.map Value.whole).map fun v => some (.plain v) := by
    rw [List.map_map, List.map_map]
    exact Workspace.Books.map_eq_of_plain (fun h => Workspace.getElem?_push_of_some h _)
      hbooks.keys_eq
  have hview : exec (view w.objects.size) w' =
      (.ok (.list (s.keys.map fun key => .plain (.whole key))), w') := by
    have hsize : w'.objects.size = w.objects.size + 1 := Array.size_push _
    rw [exec_view, hsize, viewTo, exec_bind_ok (exec_read_of hnew)]
    refine (exec_bind_ok (exec_mapM_viewTo w.objects.size hkeys) _).trans ?_
    rw [List.map_map]
    rfl
  rw [run_shown hexec hview]

theorem run_tangentSpan (ha : w.Names a o) (ho : w.Stores o s ledger) (hbooks : w.Books s ledger)
    {span : Span} (hspan : (key, span) ∈ s.layout) :
    (Step.run ⟨.tangentSpan a key, .none⟩ w).1 = .ok (.plain (.span span)) := by
  obtain ⟨i, hi⟩ := List.mem_iff_getElem?.1 hspan
  have hkey : s.keys[i]? = some key := by
    rw [← s.map_fst_layout, List.getElem?_map, hi]
    rfl
  obtain ⟨slot, hslot, hlookup⟩ := hbooks.exists_slot hkey
  have hexec : exec (perform (.tangentSpan a key)) w = (.ok slot.span, w) :=
    (exec_bind_ok (exec_assignment ha ho) _).trans (exec_bind_ok (exec_lift_of hlookup) _)
  have hobject : w.objects[slot.span]? = some (.plain (.span span)) :=
    Workspace.Books.getElem?_of_map_eq hbooks.spans_eq hslot hi
  rw [run_shown hexec (exec_view_plain hobject)]

/-- The variable of a kind is shown where it is stored. -/
theorem run_get_ok (ha : w.Names a o) (ho : w.Stores o s ledger) (hbooks : w.Books s ledger)
    (hget : s.get key kind = .ok x) :
    (Step.run ⟨.get a key kind, .none⟩ w).1 = .ok (.plain (.point x)) := by
  obtain ⟨i, hi⟩ :=
    List.mem_iff_getElem?.1 (Assignment.mem_of_find (Assignment.get_eq_ok.1 hget).1)
  have hkey : s.keys[i]? = some key := by
    rw [Assignment.keys, List.getElem?_map, hi]
    rfl
  obtain ⟨slot, hslot, hlookup⟩ := hbooks.exists_slot hkey
  have hexec : exec (perform (.get a key kind)) w = (.ok slot.point, w) :=
    (exec_bind_ok (exec_assignment ha ho) _).trans
      ((exec_bind_ok (exec_lift_of hget) _).trans (exec_bind_ok (exec_lift_of hlookup) _))
  have hobject : w.objects[slot.point]? = some (.plain (.point x)) :=
    Workspace.Books.getElem?_of_map_eq hbooks.points_eq hslot hi
  rw [run_shown hexec (exec_view_plain hobject)]

theorem run_get (ha : w.Names a o) (ho : w.Stores o s ledger) (hbooks : w.Books s ledger) :
    (∃ shown, (Step.run ⟨.get a key kind, .none⟩ w).1 = .ok shown) ↔ (key, kind) ∈ s.shape := by
  rw [← Assignment.exists_get_eq_ok hbooks.nodup]
  constructor
  · rintro ⟨shown, hrun⟩
    cases hget : s.get key kind with
    | ok x => exact ⟨x, rfl⟩
    | error e =>
      have hrefused : exec (lift (s.select key (some kind))) w = (.error e, w) := by
        rw [Assignment.select, hget]
        rfl
      have hexec : exec (perform (.get a key kind)) w = (.error e, w) :=
        (exec_bind_ok (exec_assignment ha ho) _).trans (exec_bind_error hrefused _)
      have hrun' : Step.run ⟨.get a key kind, .none⟩ w = (.error e, w) := run_error hexec
      rw [hrun'] at hrun
      cases hrun
  · rintro ⟨x, hx⟩
    exact ⟨_, run_get_ok ha ho hbooks hx⟩

/-! ### Insertion -/

theorem exec_perform_insert (hcommand : step.command = .insert a key value) (ha : w.Names a o)
    (ho : w.Stores o s ledger) (hv : w.Names value v) :
    exec (perform step.command) w =
      exec (insertPoint o s ledger key v >>= fun _ => pure o) w := by
  rw [hcommand]
  exact (exec_bind_ok (exec_resolve ha) _).trans ((exec_bind_ok (exec_read_of ho) _).trans
    (exec_bind_ok (exec_resolve hv) _))

theorem run_insert_new (hcommand : step.command = .insert a key value) (ha : w.Names a o)
    (ho : w.Stores o s ledger) (hkey : key ∉ s.keys) (hv : w.Names value v)
    (hx : w.objects[v]? = some (.plain (.point x))) :
    ∃ w' ledger', step.run w = (.ok (.assignment ⟨s.entries ++ [(key, x)]⟩
        (ledger.dimension + x.kind.dimension)), w') ∧
      w'.Stores o ⟨s.entries ++ [(key, x)]⟩ ledger' := by
  have hexec := (exec_perform_insert hcommand ha ho hv).trans
    (exec_bind_ok (exec_insertPoint hkey hx o) _)
  have hstores := stores_insertPoint ho key x
    (ledger.insert ⟨w.objects.size + 1, v, w.objects.size⟩ x.kind.dimension)
  obtain ⟨names', hrun, -⟩ := run_stores hexec hstores
  exact ⟨_, _, hrun, hstores⟩

theorem run_insert_duplicate (hcommand : step.command = .insert a key value) (ha : w.Names a o)
    (ho : w.Stores o s ledger) (hv : w.Names value v) :
    (step.run w).1 = .error (.duplicateKey key) ↔ key ∈ s.keys := by
  have hexec := exec_perform_insert hcommand ha ho hv
  constructor
  · intro hrun
    by_contra hkey
    rcases point_or_other w v with ⟨x, hx⟩ | hx
    · obtain ⟨w', ledger', hok, -⟩ := run_insert_new hcommand ha ho hkey hv hx
      rw [hok] at hrun
      cases hrun
    · rw [run_error (hexec.trans (exec_bind_error (exec_insertPoint_other hkey hx o) _))] at hrun
      cases hrun
  · intro hkey
    rw [run_error (hexec.trans (exec_bind_error (exec_insertPoint_duplicate hkey o v) _))]

/-! ### Replacement -/

theorem exec_perform_replace (hcommand : step.command.Replaces a key value kind?)
    (ha : w.Names a o) (ho : w.Stores o s ledger) (hv : w.Names value v) :
    exec (perform step.command) w = exec (replacePoint o s ledger key v kind?) w := by
  rcases hcommand with hcommand | hcommand
  · rw [hcommand]
    exact (exec_bind_ok (exec_assignment ha ho) _).trans ((exec_bind_ok (exec_resolve ha) _).trans
      (exec_bind_ok (exec_resolve hv) _))
  · rw [hcommand]
    exact (exec_bind_ok (exec_resolve ha) _).trans ((exec_bind_ok (exec_read_of ho) _).trans
      (exec_bind_ok (exec_resolve hv) _))

theorem run_replace_stored (hcommand : step.command.Replaces a key value kind?)
    (ha : w.Names a o) (ho : w.Stores o s ledger) (hs : s.keys.Nodup) (hv : w.Names value v)
    (hx : w.objects[v]? = some (.plain (.point x))) (hkey : (key, x.kind) ∈ s.shape)
    (hgiven : ∀ given ∈ kind?, given = x.kind) :
    ∃ w' ledger', step.run w =
        (.ok (.assignment ⟨Assignment.replace key x s.entries⟩ ledger.dimension), w') ∧
      w'.Stores o ⟨Assignment.replace key x s.entries⟩ ledger' := by
  obtain ⟨y, hfind, hkind⟩ := Assignment.exists_find hs hkey
  have hset : s.set key x kind? = .ok ⟨Assignment.replace key x s.entries⟩ :=
    Assignment.set_eq_ok.2 ⟨⟨y, hfind, fun given hmem => hkind.trans (hgiven given hmem).symm,
      hkind.symm⟩, rfl⟩
  have hexec := (exec_perform_replace hcommand ha ho hv).trans (exec_replacePoint hx hset o)
  obtain ⟨names', hrun, -⟩ := run_stores hexec (Workspace.stores_put ho _ _)
  exact ⟨_, _, hrun, Workspace.stores_put ho _ _⟩

theorem run_replace_mistyped (hcommand : step.command.Replaces a key value kind?)
    (ha : w.Names a o) (ho : w.Stores o s ledger) (hs : s.keys.Nodup) (hv : w.Names value v)
    (hkey : (key, kind) ∈ s.shape) :
    (∃ e, (step.run w).1 = .error e ∧ e.Mistyped key) ↔
      ¬((∀ given ∈ kind?, given = kind) ∧
        ∃ x, w.objects[v]? = some (.plain (.point x)) ∧ x.kind = kind) := by
  constructor
  · rintro ⟨e, hrun, -⟩ ⟨hgiven, x, hx, rfl⟩
    obtain ⟨w', ledger', hok, -⟩ := run_replace_stored hcommand ha ho hs hv hx hkey hgiven
    rw [hok] at hrun
    cases hrun
  · intro h
    obtain ⟨e, he, hexec⟩ := exec_replacePoint_mistyped hs hkey h o
    rw [← exec_perform_replace hcommand ha ho hv] at hexec
    exact ⟨e, congrArg Prod.fst (run_error hexec), he⟩

theorem run_replace_missing (hcommand : step.command.Replaces a key value kind?)
    (ha : w.Names a o) (ho : w.Stores o s ledger) (hs : s.keys.Nodup) (hv : w.Names value v) :
    (step.run w).1 = .error (.missingKey key) ↔ key ∉ s.keys := by
  constructor
  · intro hrun hkey
    rw [Assignment.keys_eq_map_shape, List.mem_map] at hkey
    obtain ⟨⟨key, kind⟩, hkey, rfl⟩ := hkey
    by_cases h : (∀ given ∈ kind?, given = kind) ∧
        ∃ x, w.objects[v]? = some (.plain (.point x)) ∧ x.kind = kind
    · obtain ⟨hgiven, x, hx, rfl⟩ := h
      obtain ⟨w', ledger', hok, -⟩ := run_replace_stored hcommand ha ho hs hv hx hkey hgiven
      rw [hok] at hrun
      cases hrun
    · obtain ⟨e, hrun', he⟩ := (run_replace_mistyped hcommand ha ho hs hv hkey).2 h
      cases hrun.symm.trans hrun'
      rcases he with ⟨_, _, he⟩ | ⟨_, _, he⟩ <;> cases he
  · intro hkey
    rw [run_error ((exec_perform_replace hcommand ha ho hv).trans
      (exec_replacePoint_unselected (Assignment.select_missing hkey) o))]

/-! ### Copies and motions -/

theorem run_copy (hcommand : step.command = .copy a) (ha : w.Names a o)
    (ho : w.Stores o s ledger) :
    ∃ w' o', step.run w = (.ok (.assignment s ledger.dimension), w') ∧ w'.Stores o' s ledger ∧
      (∀ name, step.names = .one name → w'.Names name o') ∧
      ∀ t ledger', ¬w.Stores o' t ledger' := by
  have hexec : exec (perform step.command) w =
      (.ok w.objects.size, w.push (.assignment s ledger)) := by
    rw [hcommand]
    exact exec_bind_ok (exec_item ha ho) _
  obtain ⟨names', hrun, hname⟩ := run_stores hexec (w.stores_push s ledger)
  exact ⟨_, _, hrun, w.stores_push s ledger, hname, w.not_stores_size⟩

theorem run_move (hcommand : step.command = .move a delta) (ha : w.Names a o)
    (ho : w.Stores o s ledger) (hbooks : w.Books s ledger) (hrun : step.run w = (.ok shown, w')) :
    ∃ t o' ledger', shown = .assignment t t.dimension ∧ s.Alike t ∧ w'.Stores o' t ledger' ∧
      (∀ name, step.names = .one name → w'.Names name o') ∧
      ∀ t ledger', ¬w.Stores o' t ledger' := by
  have hexec : exec (perform step.command) w = exec (do
      let d ← tensor .noAttribute delta
      allocateAssignment (← lift (s.moveWithin ledger.dimension d)) ledger) w := by
    rw [hcommand]
    exact exec_bind_ok (exec_item ha ho) _
  obtain ⟨o', w₁, hperform, -⟩ := of_exec_bind hrun
  obtain ⟨d, -, hrest⟩ := of_reads_bind (reads_tensor _ delta) (hexec.symm.trans hperform)
  obtain ⟨t, ht, hallocate⟩ := of_reads_bind (reads_lift _) hrest
  have hmove : s.move d = .ok t := (hbooks.moveWithin_eq d).symm.trans (congrArg Prod.fst ht)
  have hshape := Assignment.shape_move hmove
  obtain ⟨w₂, ledger', hexec', hframes, hbooks'⟩ := exec_allocateAssignment hbooks hshape
  cases hallocate.symm.trans hexec'
  obtain ⟨names', hrun', hname⟩ := run_stores hperform (w₂.stores_push t ledger')
  rw [hbooks'.dimension_eq] at hrun'
  cases hrun.symm.trans hrun'
  exact ⟨t, _, ledger', rfl, .of_shape hshape, w₂.stores_push t ledger', hname,
    fun t ledger' h => w₂.not_stores_size t ledger' (hframes.stores.2 h)⟩

end Step

/-! ## Runs -/

namespace Workspace

variable {w : Workspace} {a : String} {o : Nat} {s : Assignment Float} {ledger : Ledger}

/-- The workspace behind some steps. -/
def after (w : Workspace) (steps : List Step) : Workspace :=
  steps.foldl (fun w step => (step.run w).2) w

/-- Assignments keep their books in every run. -/
theorem evolves_after (hw : w.Sound) {steps : List Step}
    (h : ∀ step ∈ steps, step.command.Regular) : w.Evolves (fun _ => True) (w.after steps) := by
  induction steps generalizing w with
  | nil => exact .of_frames hw (.refl w)
  | cons step steps ih =>
    have hstep := Step.evolves_run hw (h step (List.mem_cons_self ..))
    exact (hstep.mono fun _ _ => trivial).trans
      (ih hstep.sound fun step hmem => h step (List.mem_cons_of_mem _ hmem))

/-- How a workspace answers operations on an assignment of a name. -/
structure Answers (w : Workspace) (a : String) (o : Nat) (s : Assignment Float)
    (ledger : Ledger) : Prop where
  length : (Step.run ⟨.length (.name a), .none⟩ w).1 = .ok (.plain (.whole s.keys.length))
  keys : (Step.run ⟨.keys a, .none⟩ w).1 =
    .ok (.list (s.keys.map fun key => .plain (.whole key)))
  span : ∀ {key : Int} {span : Span}, (key, span) ∈ s.layout →
    (Step.run ⟨.tangentSpan a key, .none⟩ w).1 = .ok (.plain (.span span))
  /-- A variable is had as one of the kind that is stored, and of no other kind. -/
  get : ∀ {key : Int} {kind : Kind},
    (∃ shown, (Step.run ⟨.get a key kind, .none⟩ w).1 = .ok shown) ↔ (key, kind) ∈ s.shape
  insert_duplicate : ∀ {step : Step} {key : Int} {value : String} {v : Nat},
    step.command = .insert a key value → w.Names value v →
    ((step.run w).1 = .error (.duplicateKey key) ↔ key ∈ s.keys)
  insert_new : ∀ {step : Step} {key : Int} {value : String} {v : Nat} {x : Variable Float},
    step.command = .insert a key value → key ∉ s.keys → w.Names value v →
    w.objects[v]? = some (.plain (.point x)) →
    ∃ w' ledger', step.run w = (.ok (.assignment ⟨s.entries ++ [(key, x)]⟩
        (s.dimension + x.kind.dimension)), w') ∧
      w'.Stores o ⟨s.entries ++ [(key, x)]⟩ ledger'
  replace_missing : ∀ {step : Step} {key : Int} {value : String} {kind? : Option Kind} {v : Nat},
    step.command.Replaces a key value kind? → w.Names value v →
    ((step.run w).1 = .error (.missingKey key) ↔ key ∉ s.keys)
  replace_mistyped : ∀ {step : Step} {key : Int} {value : String} {kind? : Option Kind} {v : Nat}
    {kind : Kind}, step.command.Replaces a key value kind? → w.Names value v →
    (key, kind) ∈ s.shape →
    ((∃ e, (step.run w).1 = .error e ∧ e.Mistyped key) ↔
      ¬((∀ given ∈ kind?, given = kind) ∧
        ∃ x, w.objects[v]? = some (.plain (.point x)) ∧ x.kind = kind))
  replace_stored : ∀ {step : Step} {key : Int} {value : String} {kind? : Option Kind} {v : Nat}
    {x : Variable Float}, step.command.Replaces a key value kind? → w.Names value v →
    w.objects[v]? = some (.plain (.point x)) → (key, x.kind) ∈ s.shape →
    (∀ given ∈ kind?, given = x.kind) →
    ∃ w' ledger', step.run w =
        (.ok (.assignment ⟨Assignment.replace key x s.entries⟩ s.dimension), w') ∧
      w'.Stores o ⟨Assignment.replace key x s.entries⟩ ledger'
  /-- A copy is another assignment, of the same variables. -/
  copy : ∀ {step : Step}, step.command = .copy a →
    ∃ w' o', step.run w = (.ok (.assignment s s.dimension), w') ∧ w'.Stores o' s ledger ∧
      (∀ name, step.names = .one name → w'.Names name o') ∧ ∀ t ledger', ¬w.Stores o' t ledger'
  /-- What an assignment is moved to is another one, of the same keys, kinds and spans. -/
  move : ∀ {step : Step} {delta : Source} {shown : Shown} {w' : Workspace},
    step.command = .move a delta → step.run w = (.ok shown, w') →
    ∃ t o' ledger', shown = .assignment t t.dimension ∧ s.Alike t ∧ w'.Stores o' t ledger' ∧
      (∀ name, step.names = .one name → w'.Names name o') ∧ ∀ t ledger', ¬w.Stores o' t ledger'

theorem Sound.answers (hw : w.Sound) (ha : w.Names a o) (ho : w.Stores o s ledger) :
    w.Answers a o s ledger where
  length := Step.run_length ha ho
  keys := Step.run_keys ha ho (hw ho)
  span := Step.run_tangentSpan ha ho (hw ho)
  get := Step.run_get ha ho (hw ho)
  insert_duplicate hcommand hv := Step.run_insert_duplicate hcommand ha ho hv
  insert_new hcommand hkey hv hx :=
    (hw ho).dimension_eq ▸ Step.run_insert_new hcommand ha ho hkey hv hx
  replace_missing hcommand hv := Step.run_replace_missing hcommand ha ho (hw ho).nodup hv
  replace_mistyped hcommand hv hkey :=
    Step.run_replace_mistyped hcommand ha ho (hw ho).nodup hv hkey
  replace_stored hcommand hv hx hkey hgiven :=
    (hw ho).dimension_eq ▸
      Step.run_replace_stored hcommand ha ho (hw ho).nodup hv hx hkey hgiven
  copy hcommand := (hw ho).dimension_eq ▸ Step.run_copy hcommand ha ho
  move hcommand hrun := Step.run_move hcommand ha ho (hw ho) hrun

/-- A workspace whose assignments keep their books, also behind further steps, and answer every
operation by their keys and kinds. -/
structure Orderly (w : Workspace) : Prop where
  sound : w.Sound
  answers : ∀ {a : String} {o : Nat} {s : Assignment Float} {ledger : Ledger},
    w.Names a o → w.Stores o s ledger → w.Answers a o s ledger
  /-- An assignment that nothing is inserted into has the keys, kinds and spans that it had. -/
  evolves : ∀ {step : Step}, step.command.Regular →
    w.Evolves (step.InsertsInto w) (step.run w).2
  /-- A refused step changes no assignment. -/
  refused : ∀ {step : Step} {e : Error}, step.command.Regular → (step.run w).1 = .error e →
    w.Frames (step.run w).2
  /-- The keys, kinds and spans of an assignment begin those that it has later. -/
  evolves_after : ∀ {steps : List Step}, (∀ step ∈ steps, step.command.Regular) →
    w.Evolves (fun _ => True) (w.after steps)

/-- The assignments that are made in a run keep their books through all of it. -/
theorem orderly_after (hw : ∀ o s ledger, ¬w.Stores o s ledger) {steps : List Step}
    (h : ∀ step ∈ steps, step.command.Regular) : (w.after steps).Orderly := by
  have hsound : (w.after steps).Sound := (evolves_after (fun ho => absurd ho (hw _ _ _)) h).sound
  exact ⟨hsound, hsound.answers, Step.evolves_run hsound,
    fun hstep he => Step.frames_of_refused hsound hstep he, evolves_after hsound⟩

/-- A variable is inserted into an assignment under a key twice, which is refused the second time,
and into a copy of it. -/
def copyingSteps : List Step :=
  [⟨.point .line (.literal (.list [.number 2])), .one "x"⟩, ⟨.assignment, .one "s"⟩,
    ⟨.insert "s" 7 "x", .none⟩, ⟨.insert "s" 7 "x", .none⟩, ⟨.copy "s", .one "t"⟩,
    ⟨.insert "t" (-3) "x", .none⟩]

theorem orderly_after_copying :
    (∀ o s ledger, ¬empty.Stores o s ledger) ∧ (∀ step ∈ copyingSteps, step.command.Regular) ∧
      (empty.after copyingSteps).Orderly ∧
      (Step.run ⟨.keys "s", .none⟩ (empty.after copyingSteps)).1 = .ok (.list [.plain (.whole 7)]) ∧
      (Step.run ⟨.keys "t", .none⟩ (empty.after copyingSteps)).1 =
        .ok (.list [.plain (.whole 7), .plain (.whole (-3))]) := by
  have hempty : ∀ o s ledger, ¬empty.Stores o s ledger := by
    intro o s ledger h
    cases h
  have hsteps : ∀ step ∈ copyingSteps, step.command.Regular := by
    intro step hstep
    simp only [copyingSteps, List.mem_cons, List.not_mem_nil, or_false] at hstep
    rcases hstep with rfl | rfl | rfl | rfl | rfl | rfl
    · exact .inr (framed_newPoint _ _)
    all_goals exact .inl trivial
  exact ⟨hempty, hsteps, orderly_after hempty hsteps, rfl, rfl⟩

end Workspace

end LeastSquares
