import LeastSquares.Proofs.Shapes
import LeastSquares.Workspace.Run

/-!
# Computations on a workspace

What a computation gives and the workspace behind it is its execution (`Session.exec`). Some
computations only read (`Session.Reads`): a name is resolved, an operand is read
(`Session.reads_tensor`, `Session.reads_numbersAt`) and an object is shown (`Session.reads_view`) in
this way. Most others leave the assignments of a workspace alone (`Session.Framed`): values persist,
and the same assignments are stored behind them as before (`Workspace.Frames`). Either kind is
closed under sequences. A variable is made (`Session.framed_newPoint`) and an object is named
(`Session.framed_name`) by computations of the second kind, and an assignment can always be shown
and named (`Session.exec_keep`).
-/

namespace LeastSquares

/-! ## Workspaces -/

namespace Workspace

variable {w w₁ w₂ : Workspace} {o : Nat}

/-- A name stands for an object. -/
def Names (w : Workspace) (name : String) (o : Nat) : Prop := w.names.lookup name = some o

/-- An object is an assignment, with the objects that it keeps for its variables. -/
def Stores (w : Workspace) (o : Nat) (s : Assignment Float) (ledger : Ledger) : Prop :=
  w.objects[o]? = some (.assignment s ledger)

/-- The workspace with a new object. -/
def push (w : Workspace) (item : Item) : Workspace := { w with objects := w.objects.push item }

/-- The workspace with an object changed in place. -/
def put (w : Workspace) (o : Nat) (item : Item) : Workspace :=
  { w with objects := w.objects.setIfInBounds o item }

/-- The workspace with other names. -/
def rename (w : Workspace) (names : List (String × Nat)) : Workspace := { w with names := names }

theorem getElem?_push (w : Workspace) (item : Item) (i : Nat) :
    (w.push item).objects[i]? = if i = w.objects.size then some item else w.objects[i]? :=
  Array.getElem?_push

theorem getElem?_put {item : Item} (ho : w.objects[o]? = some item) (item' : Item) (i : Nat) :
    (w.put o item').objects[i]? = if i = o then some item' else w.objects[i]? := by
  obtain ⟨hlt, -⟩ := Array.getElem?_eq_some_iff.1 ho
  rw [put, Array.getElem?_setIfInBounds]
  by_cases hi : o = i
  · rw [if_pos hi, if_pos hi.symm, if_pos (hi ▸ hlt)]
  · rw [if_neg hi, if_neg (Ne.symm hi)]

/-- An object that exists stays behind a new one. -/
theorem getElem?_push_of_some {item : Item} (ho : w.objects[o]? = some item) (item' : Item) :
    (w.push item').objects[o]? = some item := by
  obtain ⟨hlt, -⟩ := Array.getElem?_eq_some_iff.1 ho
  rw [getElem?_push, if_neg hlt.ne, ho]

/-- A new assignment is stored. -/
theorem stores_push (w : Workspace) (s : Assignment Float) (ledger : Ledger) :
    (w.push (.assignment s ledger)).Stores w.objects.size s ledger :=
  (getElem?_push _ _ _).trans (if_pos rfl)

/-- Where a new object comes to stand, no assignment is stored. -/
theorem not_stores_size (w : Workspace) (s : Assignment Float) (ledger : Ledger) :
    ¬w.Stores w.objects.size s ledger := by
  intro h
  obtain ⟨hlt, -⟩ := Array.getElem?_eq_some_iff.1 h
  exact lt_irrefl _ hlt

/-- An assignment that an object is changed to is stored. -/
theorem stores_put {item : Item} (ho : w.objects[o]? = some item) (s : Assignment Float)
    (ledger : Ledger) : (w.put o (.assignment s ledger)).Stores o s ledger :=
  (getElem?_put ho _ o).trans (if_pos rfl)

/-- Values persist, and the same assignments are stored as before. -/
structure Frames (w₁ w₂ : Workspace) : Prop where
  plain : ∀ {o : Nat} {v : Value}, w₁.objects[o]? = some (.plain v) →
    w₂.objects[o]? = some (.plain v)
  stores : ∀ {o : Nat} {s : Assignment Float} {ledger : Ledger},
    w₂.Stores o s ledger ↔ w₁.Stores o s ledger

namespace Frames

theorem refl (w : Workspace) : w.Frames w := ⟨id, Iff.rfl⟩

theorem trans {w₃ : Workspace} (h : w₁.Frames w₂) (h' : w₂.Frames w₃) : w₁.Frames w₃ :=
  ⟨fun ho => h'.plain (h.plain ho), h'.stores.trans h.stores⟩

theorem rename (w : Workspace) (names : List (String × Nat)) : w.Frames (w.rename names) :=
  ⟨id, Iff.rfl⟩

/-- A new object that is no assignment. -/
theorem push {item : Item} (hitem : ∀ s ledger, item ≠ .assignment s ledger) :
    w.Frames (w.push item) where
  plain ho := getElem?_push_of_some ho item
  stores := by
    intro o s ledger
    rw [Stores, Stores, getElem?_push]
    split
    · rename_i hsize
      have hnone : w.objects[o]? = none := Array.getElem?_eq_none (le_of_eq hsize.symm)
      rw [hnone, Option.some.injEq]
      exact ⟨fun h => absurd h (hitem s ledger), fun h => absurd h.symm (Option.some_ne_none _)⟩
    · exact Iff.rfl

/-- A list that is changed in place. -/
theorem putList {xs : List Nat} (ho : w.objects[o]? = some (.list xs)) (ys : List Nat) :
    w.Frames (w.put o (.list ys)) where
  plain := by
    intro i v hi
    rw [getElem?_put ho]
    split
    · rename_i heq
      cases ho.symm.trans (heq ▸ hi)
    · exact hi
  stores := by
    intro i s ledger
    rw [Stores, Stores, getElem?_put ho]
    split
    · rename_i heq
      rw [heq, ho]
      exact ⟨fun h => Item.noConfusion (Option.some.inj h), fun h =>
        Item.noConfusion (Option.some.inj h)⟩
    · exact Iff.rfl

end Frames

end Workspace

/-! ## Executions -/

namespace Session

variable {α β : Type} {w w' : Workspace}

/-- What a computation gives, and the workspace behind it. -/
def exec (m : Session α) (w : Workspace) : Except Error α × Workspace :=
  StateT.run (ExceptT.run m) w

@[simp] theorem exec_pure (a : α) : exec (pure a) w = (.ok a, w) := rfl

@[simp] theorem exec_throw (e : Error) : exec (throw e : Session α) w = (.error e, w) := rfl

@[simp] theorem exec_lift (result : Except Error α) : exec (lift result) w = (result, w) := rfl

@[simp] theorem exec_get : exec (MonadState.get : Session Workspace) w = (.ok w, w) := rfl

@[simp] theorem exec_allocate (item : Item) :
    exec (allocate item) w = (.ok w.objects.size, w.push item) := rfl

@[simp] theorem exec_fresh (v : Value) :
    exec (fresh v) w = (.ok w.objects.size, w.push (.plain v)) := rfl

@[simp] theorem exec_read (object : Nat) :
    exec (read object) w = (.ok ((w.objects[object]?).getD (.plain .nothing)), w) := rfl

@[simp] theorem exec_replace (object : Nat) (item : Item) :
    exec (replace object item) w = (.ok (), w.put object item) := rfl

@[simp] theorem exec_name (name : String) (object : Nat) :
    exec (bind name object) w = (.ok (), w.rename ((name, object) :: w.names)) := rfl

/-- A computation goes on where the first part gives something. -/
theorem exec_bind (m : Session α) (f : α → Session β) :
    exec (m >>= f) w = match exec m w with
      | (.ok a, w') => exec (f a) w'
      | (.error e, w') => (.error e, w') := by
  change (StateT.bind (ExceptT.run m) (ExceptT.bindCont f)) w = _
  simp only [StateT.bind, exec, StateT.run]
  cases m.run w with
  | mk result w' => cases result <;> rfl

theorem exec_bind_ok {m : Session α} {a : α} (h : exec m w = (.ok a, w')) (f : α → Session β) :
    exec (m >>= f) w = exec (f a) w' := by rw [exec_bind, h]

theorem exec_bind_error {m : Session α} {e : Error} (h : exec m w = (.error e, w'))
    (f : α → Session β) : exec (m >>= f) w = (.error e, w') := by rw [exec_bind, h]

theorem exec_lift_of {result : Except Error α} {a : α} (h : result = .ok a) :
    exec (lift result) w = (.ok a, w) := by rw [exec_lift, h]

theorem exec_resolve {name : String} {o : Nat} (h : w.Names name o) :
    exec (resolve name) w = (.ok o, w) := by
  rw [resolve, exec_bind_ok exec_get, h]
  rfl

theorem exec_resolve_none {name : String} (h : w.names.lookup name = none) :
    exec (resolve name) w = (.error .noAttribute, w) := by
  rw [resolve, exec_bind_ok exec_get, h]
  rfl

theorem exec_read_of {o : Nat} {item : Item} (h : w.objects[o]? = some item) :
    exec (read o) w = (.ok item, w) := by rw [exec_read, h, Option.getD_some]

/-! ## Computations that only read -/

/-- A computation that leaves the workspace as it is. -/
def Reads (m : Session α) : Prop := ∀ w : Workspace, (exec m w).2 = w

theorem reads_pure (a : α) : Reads (pure a) := fun _ => rfl

theorem reads_throw (e : Error) : Reads (throw e : Session α) := fun _ => rfl

theorem reads_lift (result : Except Error α) : Reads (lift result) := fun _ => rfl

theorem reads_read (object : Nat) : Reads (read object) := fun _ => rfl

theorem reads_bind {m : Session α} {f : α → Session β} (hm : Reads m) (hf : ∀ a, Reads (f a)) :
    Reads (m >>= f) := by
  intro w
  have hfirst := hm w
  rw [exec_bind]
  cases hresult : exec m w with
  | mk result w' =>
    rw [hresult] at hfirst
    cases hfirst
    cases result with
    | ok a => exact hf a w'
    | error e => rfl

theorem reads_mapM {f : α → Session β} {xs : List α} (hf : ∀ x, Reads (f x)) :
    Reads (xs.mapM f) := by
  induction xs with
  | nil =>
    rw [List.mapM_nil]
    exact reads_pure _
  | cons x xs ih =>
    rw [List.mapM_cons]
    exact reads_bind (hf x) fun y => reads_bind ih fun ys => reads_pure _

theorem reads_resolve (name : String) : Reads (resolve name) := by
  intro w
  cases h : w.names.lookup name with
  | none => rw [exec_resolve_none h]
  | some o => rw [exec_resolve h]

theorem reads_item (name : String) : Reads (item name) :=
  reads_bind (reads_resolve name) reads_read

theorem reads_source (data : Source) : Reads (source data) := by
  cases data with
  | name name => exact reads_item name
  | literal data => exact reads_bind (reads_lift _) fun _ => reads_pure _

theorem reads_tensor (cause : Error) (data : Source) : Reads (tensor cause data) :=
  reads_bind (reads_source data) fun _ => reads_lift _

/-- An object is only looked at to be shown. -/
theorem reads_viewTo (depth object : Nat) : Reads (viewTo depth object) := by
  induction depth generalizing object with
  | zero => exact reads_throw _
  | succ depth ih =>
    refine reads_bind (reads_read object) fun item => ?_
    cases item with
    | plain v => exact reads_pure _
    | assignment s ledger => exact reads_pure _
    | factor owner name keys measure => exact reads_pure _
    | graph elements =>
      exact reads_bind (reads_mapM ih) fun _ => reads_bind (reads_lift _) fun _ => reads_pure _
    | list elements => exact reads_bind (reads_mapM ih) fun _ => reads_pure _
    | tuple elements => exact reads_bind (reads_mapM ih) fun _ => reads_pure _
    | record fields =>
      refine reads_bind (reads_mapM fun field => ?_) fun _ => reads_pure _
      exact reads_bind (ih field.2) fun _ => reads_pure _

theorem reads_view (object : Nat) : Reads (view object) := fun w =>
  reads_viewTo (w.objects.size + 1) object w

/-- Objects are only looked at for the numbers that they hold. -/
theorem reads_literalTo (depth object : Nat) : Reads (literalTo depth object) := by
  induction depth generalizing object with
  | zero => exact reads_throw _
  | succ depth ih =>
    refine reads_bind (reads_read object) fun item => ?_
    cases item with
    | list elements => exact reads_bind (reads_mapM ih) fun _ => reads_pure _
    | tuple elements => exact reads_bind (reads_mapM ih) fun _ => reads_pure _
    | plain v =>
      cases v with
      | span s => exact reads_pure _
      | _ => exact reads_bind (reads_lift _) fun _ => reads_pure _
    | _ => exact reads_throw _

theorem reads_numbersAt (object : Nat) : Reads (numbersAt object) := by
  refine reads_bind (reads_read object) fun item => ?_
  have hliteral : Reads (do
      let data ← literalTo (← depth) object
      lift data.toList) := fun w =>
    reads_bind (reads_literalTo (w.objects.size + 1) object) (fun data => reads_lift _) w
  cases item with
  | assignment s ledger => exact reads_lift _
  | plain v =>
    cases v with
    | tensor t => exact reads_pure _
    | _ => exact hliteral
  | _ => exact hliteral

/-! ## Computations that leave assignments alone -/

/-- A computation that leaves values and assignments alone. -/
def Framed (m : Session α) : Prop := ∀ w : Workspace, w.Frames (exec m w).2

theorem Reads.framed {m : Session α} (h : Reads m) : Framed m := by
  intro w
  rw [h w]
  exact .refl w

theorem framed_fresh (v : Value) : Framed (fresh v) := fun _ =>
  .push fun _ _ h => Item.noConfusion h

theorem framed_bind {m : Session α} {f : α → Session β} (hm : Framed m) (hf : ∀ a, Framed (f a)) :
    Framed (m >>= f) := by
  intro w
  have hfirst := hm w
  rw [exec_bind]
  cases hresult : exec m w with
  | mk result w' =>
    rw [hresult] at hfirst
    cases result with
    | ok a => exact hfirst.trans (hf a w')
    | error e => exact hfirst

theorem framed_mapM {f : α → Session β} {xs : List α} (hf : ∀ x, Framed (f x)) :
    Framed (xs.mapM f) := by
  induction xs with
  | nil =>
    rw [List.mapM_nil]
    exact (reads_pure _).framed
  | cons x xs ih =>
    rw [List.mapM_cons]
    exact framed_bind (hf x) fun y => framed_bind ih fun ys => (reads_pure _).framed

theorem framed_checked (v : Except Error Value) : Framed (checked v) :=
  framed_bind (reads_lift v).framed framed_fresh

theorem framed_object (data : Source) : Framed (object data) := by
  cases data with
  | name name => exact (reads_resolve name).framed
  | literal data => exact framed_bind (reads_lift _).framed fun _ => framed_fresh _

theorem framed_newPoint (kind : Kind) (data : Source) : Framed (newPoint kind data) :=
  framed_bind (framed_bind (framed_object data) fun o => (reads_numbersAt o).framed) fun _ =>
    framed_checked _

/-- The parts of an object are values where they are new. -/
theorem framed_parts (object : Nat) : Framed (parts object) := by
  refine framed_bind (reads_read object).framed fun item => ?_
  cases item with
  | plain v =>
    cases v with
    | span s => exact framed_mapM fun _ => framed_fresh _
    | text s => exact framed_mapM fun _ => framed_fresh _
    | tensor t =>
      exact framed_bind (reads_lift _).framed fun _ => framed_mapM fun _ => framed_fresh _
    | _ => exact (reads_throw _).framed
  | assignment s ledger => exact (reads_pure _).framed
  | factor owner name keys measure => exact (reads_throw _).framed
  | graph elements => exact (reads_pure _).framed
  | list elements => exact (reads_pure _).framed
  | tuple elements => exact (reads_pure _).framed
  | record fields => exact framed_mapM fun _ => framed_fresh _

/-- Names are given one by one. -/
theorem exec_forM_bind (pairs : List (String × Nat)) (w : Workspace) :
    ∃ names, exec (pairs.forM fun (name, part) => bind name part) w = (.ok (), w.rename names) := by
  induction pairs generalizing w with
  | nil => exact ⟨w.names, rfl⟩
  | cons pair pairs ih =>
    obtain ⟨names, hnames⟩ := ih (w.rename (pair :: w.names))
    refine ⟨names, ?_⟩
    change exec (bind pair.1 pair.2 >>= fun _ => pairs.forM _) w = _
    rw [exec_bind_ok (exec_name pair.1 pair.2)]
    exact hnames

theorem framed_name (names : Names) (object : Nat) : Framed (Session.name names object) := by
  cases names with
  | none => exact (reads_pure _).framed
  | one name => exact fun w => .rename w _
  | parts names =>
    refine framed_bind (framed_parts object) fun parts w => ?_
    obtain ⟨names', hnames⟩ := exec_forM_bind (names.zip parts) w
    rw [hnames]
    exact .rename w _

theorem framed_keep (names : Names) (object : Nat) : Framed (keep names object) :=
  framed_bind (reads_view object).framed fun _ => framed_bind (framed_name names object) fun _ =>
    (reads_pure _).framed

/-- References are followed no deeper than there are objects. -/
theorem exec_view (w : Workspace) (o : Nat) :
    exec (view o) w = exec (viewTo (w.objects.size + 1) o) w := rfl

/-- A value is shown as it is. -/
theorem exec_view_plain {v : Value} (ho : w.objects[o]? = some (.plain v)) :
    exec (view o) w = (.ok (.plain v), w) := by
  rw [exec_view, viewTo, exec_bind_ok (exec_read_of ho)]
  rfl

/-- Values are shown one by one. -/
theorem exec_mapM_viewTo {objects : List Nat} {values : List Value} (depth : Nat)
    (h : objects.map (fun o => w.objects[o]?) = values.map fun v => some (.plain v)) :
    exec (objects.mapM (viewTo (depth + 1))) w = (.ok (values.map .plain), w) := by
  induction objects generalizing values with
  | nil =>
    cases values with
    | nil => rfl
    | cons v values => cases h
  | cons o objects ih =>
    cases values with
    | nil => cases h
    | cons v values =>
      obtain ⟨ho, hrest⟩ := List.cons.inj h
      have hhead : exec (viewTo (depth + 1) o) w = (.ok (.plain v), w) := by
        rw [viewTo, exec_bind_ok (exec_read_of ho)]
        rfl
      rw [List.mapM_cons]
      exact (exec_bind_ok hhead _).trans (exec_bind_ok (ih hrest) _)

/-- An assignment is shown and named. -/
theorem exec_keep {o : Nat} {s : Assignment Float} {ledger : Ledger} (ho : w.Stores o s ledger)
    (names : Names) :
    ∃ names', exec (keep names o) w = (.ok (.assignment s ledger.dimension), w.rename names') ∧
      ∀ name, names = .one name → (w.rename names').Names name o := by
  have hview : exec (view o) w = (.ok (.assignment s ledger.dimension), w) := by
    rw [exec_view, viewTo, exec_bind_ok (exec_read_of ho)]
    rfl
  have hname : ∃ names', exec (Session.name names o) w = (.ok (), w.rename names') ∧
      ∀ name, names = .one name → (w.rename names').Names name o := by
    cases names with
    | none => exact ⟨w.names, rfl, fun name h => Names.noConfusion h⟩
    | one name =>
      refine ⟨(name, o) :: w.names, rfl, fun name' h => ?_⟩
      cases h
      exact List.lookup_cons_self
    | parts names =>
      have hparts : exec (parts o) w = (.ok (ledger.slots.map (·.key)), w) := by
        rw [parts, exec_bind_ok (exec_read_of ho)]
        rfl
      obtain ⟨names', hnames⟩ := exec_forM_bind (names.zip (ledger.slots.map (·.key))) w
      exact ⟨names', (exec_bind_ok hparts _).trans hnames, fun name h => Names.noConfusion h⟩
  obtain ⟨names', hexec, hname⟩ := hname
  refine ⟨names', ?_, hname⟩
  rw [keep, exec_bind_ok hview, exec_bind_ok hexec]
  rfl

end Session

end LeastSquares
