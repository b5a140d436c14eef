import LeastSquares.Workspace.Shown
import LeastSquares.Workspace.Source

/-!
# Commands on variables and assignments

Assignments change in place, by `insert` and by replacing a variable. A variable that is read is the
object that was stored, and a copied or moved assignment shares the spans of the one it came from.

Some commands also read, move or measure other objects: a sequence has elements, a tensor has a
length.
-/

namespace LeastSquares.Session

/-! ## Variables -/

/-- A new variable. -/
def newPoint (kind : Kind) (data : Source) : Session Nat := do
  let coordinates ← numbers data
  checked ((Variable.ofCoordinates kind coordinates).map .point)

/-- A number computed from the coordinates of a variable or from the entries of a tensor. -/
def measure (f : List Float → Float) (a : String) : Session Nat := do
  match ← item a with
  | .plain (.point x) => do
    let xs ← lift x.vector?
    fresh (.tensor (.scalar (f xs)))
  | .plain (.tensor t) => fresh (.tensor (.scalar (f t.data)))
  | _ => throw .noAttribute

/-- The tangent vector that an object is: a point of a vector kind also moves by a number. -/
def tangent (kind : Kind) (object : Item) : Except Error (Tensor Float) :=
  match kind, object with
  | .vector _ _, .plain v =>
    match v.tensor? with
    | some t => .ok t
    | none => .error .notSupported
  | _, object => object.tensor .notSupported

/-- A new assignment, whose variables are new objects and whose spans are given. -/
def allocateAssignment (s : Assignment Float) (ledger : Ledger) : Session Nat := do
  let slots ← (s.entries.zip ledger.slots).mapM fun (entry, slot) => do
    return { slot with point := ← fresh (.point entry.2) }
  allocate (.assignment s ⟨slots, ledger.dimension⟩)

/-- A variable or an assignment moved along a tangent vector. -/
def move (a : String) (delta : Source) : Session Nat := do
  match ← item a with
  | .plain (.point x) => do
    let t ← lift (tangent x.kind (← source delta))
    checked ((x.move t).map .point)
  | .assignment s ledger => do
    let t ← tensor .noAttribute delta
    allocateAssignment (← lift (s.moveWithin ledger.dimension t)) ledger
  | _ => throw .noAttribute

/-- The tangent vector from a variable to another one, and in a manifold to a tensor. -/
def displacement (a b : String) : Session Nat := do
  let other ← item b
  match ← item a with
  | .plain (.point x) =>
    match x.kind, other with
    | _, .plain (.point y) => checked ((x.displacement y).map .tensor)
    | .manifold name n, .plain (.tensor t) => do
      let manifold : Manifold Float n := Manifolds.named name n
      checked ((manifold.displacement (.ofList x.coordinates) t).map (.tensor ·.tangent))
    | .manifold _ _, _ => throw .noAttribute
    | .vector _ _, _ => throw (Value.refusal x other.typeName)
  | _ => throw .noAttribute

/-! ## Assignments -/

/-- Inserts a variable into an assignment, where its span begins behind all others. -/
def insertPoint (store : Nat) (s : Assignment Float) (ledger : Ledger) (key : Int)
    (object : Nat) : Session Unit := do
  if s.contains key then throw (.duplicateKey key)
  match ← read object with
  | .plain (.point x) => do
    let t ← lift (s.insert key x)
    let span ← fresh (.span (.ofLength ledger.dimension x.kind.dimension))
    let slot : Slot := ⟨← fresh (.whole key), object, span⟩
    replace store (.assignment t (ledger.insert slot x.kind.dimension))
  | _ => throw .noAttribute

/-- The elements with one more in front of the place that an index denotes: a negative one counts
from the end, and beyond the ends it denotes the nearest place. -/
def insertAt (elements : List Nat) (index : Int) (object : Nat) : List Nat :=
  let i := if index < 0 then index + elements.length else index
  elements.take i.toNat ++ [object] ++ elements.drop i.toNat

/-- Inserts a variable into an assignment, or an object into a list, in place. -/
def insert (a : String) (key : Int) (value : String) : Session Nat := do
  let store ← resolve a
  match ← read store with
  | .assignment s ledger => insertPoint store s ledger key (← resolve value)
  | .list elements =>
    if key < Machine.least ∨ Machine.greatest < key then throw .lengthOverflow
    replace store (.list (insertAt elements key (← resolve value)))
  | _ => throw .noAttribute
  return store

/-- The slot of an assignment under a key. -/
def slot (s : Assignment Float) (ledger : Ledger) (key : Int) : Except Error Slot :=
  Assignment.lookup key (s.keys.zip ledger.slots)

/-- The variable of an assignment, of the given kind if one is given. -/
def select (s : Assignment Float) (ledger : Ledger) (key : Int) (kind? : Option Kind) :
    Session Nat := do
  let _ ← lift (s.select key kind?)
  return (← lift (slot s ledger key)).point

/-- The variable of an assignment, of the given kind. -/
def get (a : String) (key : Int) (kind : Kind) : Session Nat := do
  let (s, ledger) ← assignment a
  select s ledger key (some kind)

/-- The place in a sequence that an index denotes: a negative one counts from the end. -/
def place (length : Nat) (index : Int) : Except Error Nat :=
  let i := if index < 0 then index + length else index
  if i < 0 ∨ length ≤ i then .error .noAxis else .ok i.toNat

/-- The part of an object under a key or at an index. -/
def element (a : String) (key : Int) (kind? : Option Kind) : Session Nat := do
  let object ← resolve a
  match ← read object, kind? with
  | .assignment s ledger, _ => select s ledger key kind?
  | .plain (.tensor t), none => do
    let _ ← lift t.leading
    part object
  | .list _, none | .tuple _, none | .plain (.span _), none | .plain (.text _), none => part object
  | .record _, none => throw (.missingKey key)
  | _, _ => throw .notSupported
where
  /-- The part of a sequence at the index. -/
  part (object : Nat) : Session Nat := do
    let parts ← parts object
    let i ← lift (place parts.length key)
    match parts[i]? with
    | some part => return part
    | none => throw .noAxis

/-- Replaces a variable of an assignment, in place. -/
def replacePoint (store : Nat) (s : Assignment Float) (ledger : Ledger) (key : Int)
    (value : Nat) (kind? : Option Kind) : Session Nat := do
  match ← read value with
  | .plain (.point x) => do
    let t ← lift (s.set key x kind?)
    replace store (.assignment t (ledger.repoint s.keys key value))
    return store
  | other => do
    let current ← lift (s.select key kind?)
    throw (.wrongReplacement key current.kind.name other.typeName)

/-- Replaces a variable of an assignment by the object of a name. -/
def set (a : String) (key : Int) (value : String) (kind? : Option Kind) : Session Nat := do
  let (s, ledger) ← assignment a
  replacePoint (← resolve a) s ledger key (← resolve value) kind?

/-- Replaces the part of an assignment or of a list, in place. -/
def setElement (a : String) (key : Int) (value : String) (kind? : Option Kind) :
    Session Nat := do
  let object ← resolve a
  match ← read object, kind? with
  | .assignment s ledger, _ => replacePoint object s ledger key (← resolve value) kind?
  | .list elements, none => do
    let i ← lift (place elements.length key)
    replace object (.list (elements.set i (← resolve value)))
    return object
  | _, _ => throw .notSupported

/-- Whether an object has a part of the given key or number. -/
def contains (a : String) (key : Int) : Session Nat := do
  match ← item a with
  | .assignment s _ => fresh (.truth (s.contains key))
  | .plain (.span s) => fresh (.truth (s.start ≤ key && key < s.stop))
  | .plain (.tensor t) => fresh (.truth (t.data.any (Value.nearest key == ·)))
  | .graph _ => fresh (.truth false)
  | .list elements | .tuple elements => do
    let sought ← fresh (.whole key)
    let found ← elements.anyM fun x => do
      match ← read x with
      | .plain v => return (← lift (v.equal? (.whole key))).getD (x == sought)
      | _ => return false
    fresh (.truth found)
  | .record _ => fresh (.truth false)
  | _ => throw .notSupported

/-- The span of a variable in the joint tangent space. -/
def tangentSpan (a : String) (key : Int) : Session Nat := do
  let (s, ledger) ← assignment a
  return (← lift (slot s ledger key)).span

/-- The keys of an assignment or the names of the fields of a record, as a list. -/
def keys (a : String) : Session Nat := do
  match ← item a with
  | .assignment _ ledger => allocate (.list (ledger.slots.map (·.key)))
  | .record fields => freshTexts (fields.map (·.1))
  | .factor _ _ _ _ | .graph _ => throw .notSupported
  | _ => throw .noAttribute

/-- A sensitivity of a variable in joint tangent coordinates. The key is looked up before the
numbers of an object. -/
def embed (a : String) (key : Int) (sensitivity : Source) : Session Nat := do
  let (s, _) ← assignment a
  let object ← object sensitivity
  let _ ← lift (s.span key)
  let data ← numbersAt object
  checked ((s.embed key data).map .vector)

/-- A copy of an assignment, a list or a record. -/
def copy (a : String) : Session Nat := do
  match ← item a with
  | .assignment s ledger => allocate (.assignment s ledger)
  | .list elements => allocate (.list elements)
  | .record fields => allocate (.record fields)
  | _ => throw .noAttribute

end LeastSquares.Session
