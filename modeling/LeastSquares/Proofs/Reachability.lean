import LeastSquares.Assignment
import LeastSquares.Proofs.Axis

/-!
# Reachable assignments and their translations

The assignments that a program can get hold of are built from the empty one by insertions,
replacements and motions (`Assignment.Reachable`); their keys are distinct
(`Assignment.Reachable.nodup_keys`), and distinct keys are enough (`Assignment.Reachable.of_nodup`).

An assignment of points of vector spaces (`Assignment.IsVector`) moves by addition. Along a joint
tangent vector that is long enough its motion is a translation (`Assignment.move_eq`), which adds to
every variable the part of the tangent vector that the span of the variable selects
(`Assignment.find_translate`), and translations one after the other add up
(`Assignment.translate_translate`).
-/

namespace LeastSquares

variable {K : Type}

/-- The kind of points of a vector space. -/
def Kind.IsVector : Kind → Prop
  | .vector _ _ => True
  | .manifold _ _ => False

instance (k : Kind) : Decidable k.IsVector :=
  match k with
  | .vector _ _ => inferInstanceAs (Decidable True)
  | .manifold _ _ => inferInstanceAs (Decidable False)

/-- A point of a vector space has as many coordinates as the space has dimensions. -/
theorem Variable.length_coordinates {x : Variable K} (hx : x.kind.IsVector) :
    x.coordinates.length = x.kind.dimension := by
  obtain ⟨kind, coordinates, admits⟩ := x
  cases kind with
  | vector name n => exact admits
  | manifold name n => exact hx.elim

namespace Assignment

/-- What a program can build from the empty assignment. -/
inductive Reachable [Add K] [Elementary K] : Assignment K → Prop
  | empty : Reachable .empty
  | insert {s t : Assignment K} {key : Int} {x : Variable K} (hs : Reachable s)
      (ht : s.insert key x = .ok t) : Reachable t
  | set {s t : Assignment K} {key : Int} {x : Variable K} {kind? : Option Kind}
      (hs : Reachable s) (ht : s.set key x kind? = .ok t) : Reachable t
  | move {s t : Assignment K} {d : Tensor K} (hs : Reachable s) (ht : s.move d = .ok t) :
      Reachable t

/-- An assignment whose variables are points of vector spaces. -/
def IsVector (s : Assignment K) : Prop := ∀ e ∈ s.entries, e.2.kind.IsVector

/-! ## Keys -/

/-- Motion keeps the keys. -/
theorem keys_moveEntries [Add K] [Elementary K] {entries moved : List (Int × Variable K)}
    {d : List K} (h : moveEntries entries d = .ok moved) :
    moved.map (·.1) = entries.map (·.1) := by
  induction entries generalizing d moved with
  | nil =>
    cases h
    rfl
  | cons e rest ih =>
    obtain ⟨x, -, h⟩ := bind_eq_ok.1 h
    obtain ⟨others, hothers, h⟩ := bind_eq_ok.1 h
    cases h
    simp only [List.map_cons, ih hothers]

/-- A key that is not contained is none of the keys. -/
theorem notMem_keys {s : Assignment K} {key : Int} (h : s.contains key = false) :
    key ∉ s.keys := by
  intro hkey
  obtain ⟨e, he, rfl⟩ := List.mem_map.1 hkey
  have hnone : s.entries.lookup e.1 = none := by simpa [contains] using h
  have hdiff := List.lookup_eq_none_iff.1 hnone e he
  simp at hdiff

/-- A replacement keeps the keys. -/
theorem keys_replace (key : Int) (x : Variable K) (entries : List (Int × Variable K)) :
    (replace key x entries).map (·.1) = entries.map (·.1) := by
  rw [replace, List.map_map]
  refine List.map_congr_left fun e _ => ?_
  simp only [Function.comp_apply]
  split
  · rename_i h
    exact h.symm
  · rfl

/-- A motion keeps the keys. -/
theorem keys_move [Add K] [Elementary K] {s t : Assignment K} {d : Tensor K}
    (h : s.move d = .ok t) : t.keys = s.keys := by
  unfold Assignment.move Assignment.moveWithin at h
  split at h
  · obtain ⟨moved, hmoved, h⟩ := bind_eq_ok.1 h
    cases h
    exact keys_moveEntries hmoved
  · cases h

/-- The keys of a reachable assignment are distinct. -/
theorem Reachable.nodup_keys [Add K] [Elementary K] {s : Assignment K} (h : s.Reachable) :
    s.keys.Nodup := by
  induction h with
  | empty => exact List.nodup_nil
  | @insert s t key x hs ht ih =>
    unfold Assignment.insert at ht
    split at ht
    · cases ht
    · rename_i hkey
      cases ht
      have hnew := notMem_keys (Bool.eq_false_iff.2 hkey)
      simp only [keys, List.map_append, List.map_cons, List.map_nil] at hnew ⊢
      refine List.nodup_append'.2 ⟨ih, List.nodup_singleton _, ?_⟩
      simpa [List.disjoint_singleton] using hnew
  | @set s t key x kind? hs ht ih =>
    obtain ⟨y, -, ht⟩ := bind_eq_ok.1 ht
    split at ht
    · cases ht
      rwa [keys, keys_replace]
    · cases ht
  | @move s t d hs ht ih => rwa [keys_move ht]

/-- Distinct keys make an assignment reachable: its variables are inserted in order. -/
theorem Reachable.of_nodup [Add K] [Elementary K] {s : Assignment K} (h : s.keys.Nodup) :
    s.Reachable := by
  obtain ⟨entries⟩ := s
  induction entries using List.reverseRecOn with
  | nil => exact .empty
  | append_singleton entries e ih =>
    rw [keys, List.map_append] at h
    obtain ⟨hentries, -, hdisjoint⟩ := List.nodup_append'.1 h
    have hnew : entries.lookup e.1 = none := by
      refine List.lookup_eq_none_iff.2 fun e' he' => ?_
      have hne : e'.1 ≠ e.1 := fun hkey =>
        hdisjoint (List.mem_map_of_mem he') (by rw [hkey]; exact List.mem_singleton_self _)
      simpa using hne.symm
    have hinsert : (⟨entries⟩ : Assignment K).insert e.1 e.2 = .ok ⟨entries ++ [e]⟩ := by
      rw [Assignment.insert, contains, hnew]
      rfl
    exact (ih hentries).insert hinsert

theorem lookup_of_find {s : Assignment K} {key : Int} {x : Variable K}
    (h : s.find key = .ok x) : s.entries.lookup key = some x := by
  simp only [find, lookup] at h
  split at h
  · rename_i y hy
    cases h
    exact hy
  · cases h

/-- The variable found under a key is stored under it. -/
theorem mem_of_find {s : Assignment K} {key : Int} {x : Variable K} (h : s.find key = .ok x) :
    (key, x) ∈ s.entries := by
  obtain ⟨before, after, heq, -⟩ := List.lookup_eq_some_iff.1 (lookup_of_find h)
  rw [heq]
  exact List.mem_append_right _ (List.mem_cons_self ..)

theorem get_eq_ok {s : Assignment K} {key : Int} {kind : Kind} {x : Variable K} :
    s.get key kind = .ok x ↔ s.find key = .ok x ∧ x.kind = kind := by
  rw [get, bind_eq_ok]
  constructor
  · rintro ⟨y, hy, h⟩
    split at h
    · rename_i hkind
      cases h
      exact ⟨hy, hkind⟩
    · cases h
  · rintro ⟨hx, hkind⟩
    exact ⟨x, hx, if_pos hkind⟩

theorem IsVector.kind_find {s : Assignment K} (hs : s.IsVector) {key : Int} {x : Variable K}
    (h : s.find key = .ok x) : x.kind.IsVector := hs _ (mem_of_find h)

end Assignment

/-! ## Translations -/

/-- The selection of consecutive positions is a part of the list. -/
theorem Span.slice_ofLength {β : Type} {xs : List β} {offset n : Nat}
    (h : offset + n ≤ xs.length) :
    (Span.ofLength offset n).slice xs = (xs.drop offset).take n := by
  have hon : (Span.ofLength offset n).On xs.length := by
    refine ⟨⟨?_, ?_⟩, ?_⟩ <;> simp only [ofLength] <;> omega
  rw [slice, hon.extent_eq, length_ofLength]
  by_cases hn : n = 0
  · rw [hn, List.take_zero, List.take_zero]
  · rw [hon.lower_eq (by rw [length_ofLength]; omega)]
    rfl

section
variable [Zero K] [Add K]

namespace Variable

/-- The variable with a tangent vector added to its coordinates. -/
def translate (x : Variable K) (d : List K) : Variable K :=
  ⟨x.kind, List.ofFn (Dense.toVector x.coordinates.length x.coordinates + Dense.toVector _ d), by
    simpa using x.admits⟩

@[simp] theorem kind_translate (x : Variable K) (d : List K) : (x.translate d).kind = x.kind := rfl

theorem coordinates_translate {x : Variable K} {d : List K}
    (hd : d.length = x.coordinates.length) :
    (x.translate d).coordinates = Dense.add x.coordinates d := by
  change List.ofFn (_ + _) = _
  rw [← Dense.add_ofFn, Dense.ofFn_toVector, Dense.ofFn_toVector_of_length hd]

/-- A point of a vector space moves by translation. -/
theorem move_eq [Elementary K] {x : Variable K} (hx : x.kind.IsVector) {d : List K}
    (hd : d.length = x.kind.dimension) : x.move (.ofList d) = .ok (x.translate d) := by
  have hlen : d.length = x.coordinates.length := hd.trans (length_coordinates hx).symm
  have hcoordinates := coordinates_translate hlen
  have hadmits : x.kind.Admits (Dense.add x.coordinates d).length := by
    rw [← hcoordinates]
    exact (x.translate d).admits
  have hmoved : x.moved (.ofList d) = .ok (Dense.add x.coordinates d) := by
    rw [moved]
    split
    · exact bind_eq_ok.2 ⟨_, Tensor.combine_ofList _ hlen.symm, rfl⟩
    · rename_i hkind
      rw [hkind] at hx
      exact hx.elim
  rw [move, hmoved]
  refine (dif_pos hadmits).trans (congrArg Except.ok ?_)
  exact Variable.ext rfl hcoordinates.symm

end Variable

namespace Assignment

/-- Consecutive variables with consecutive parts of a tangent vector added to them. -/
def translateEntries : List (Int × Variable K) → List K → List (Int × Variable K)
  | [], _ => []
  | (key, x) :: rest, d =>
    (key, x.translate (d.take x.kind.dimension)) ::
      translateEntries rest (d.drop x.kind.dimension)

/-- The assignment with a joint tangent vector added to the coordinates of its variables. -/
def translate (s : Assignment K) (d : List K) : Assignment K := ⟨translateEntries s.entries d⟩

/-- Translations keep keys and kinds. -/
theorem map_translateEntries {γ : Type} (f : Int → Kind → γ) (entries : List (Int × Variable K))
    (d : List K) :
    (translateEntries entries d).map (fun e => f e.1 e.2.kind) =
      entries.map fun e => f e.1 e.2.kind := by
  induction entries generalizing d with
  | nil => rfl
  | cons e rest ih => rw [translateEntries, List.map_cons, List.map_cons, ih]; rfl

@[simp] theorem dimension_translate (s : Assignment K) (d : List K) :
    (s.translate d).dimension = s.dimension :=
  congrArg total (map_translateEntries (fun _ kind => kind.dimension) s.entries d)

@[simp] theorem keys_translate (s : Assignment K) (d : List K) : (s.translate d).keys = s.keys :=
  map_translateEntries (fun key _ => key) s.entries d

/-- Points of vector spaces remain such points. -/
theorem IsVector.translate {s : Assignment K} (hs : s.IsVector) (d : List K) :
    (s.translate d).IsVector := by
  intro e he
  have hkind : e.2.kind ∈ (s.translate d).entries.map fun e => e.2.kind :=
    List.mem_map_of_mem he
  rw [Assignment.translate, map_translateEntries (fun _ kind => kind)] at hkind
  obtain ⟨e', he', heq⟩ := List.mem_map.1 hkind
  rw [← heq]
  exact hs e' he'

/-- An assignment of points of vector spaces moves by translation. -/
theorem move_eq [Elementary K] {s : Assignment K} (hs : s.IsVector) {d : List K}
    (hd : d.length = s.dimension) : s.move (.ofList d) = .ok (s.translate d) := by
  have hentries : ∀ (entries : List (Int × Variable K)) (d : List K),
      (∀ e ∈ entries, e.2.kind.IsVector) →
      d.length = total (entries.map fun e => e.2.kind.dimension) →
      moveEntries entries d = .ok (translateEntries entries d) := by
    intro entries
    induction entries with
    | nil => exact fun _ _ _ => rfl
    | cons e rest ih =>
      intro d hvec hlen
      rw [List.map_cons, total_cons] at hlen
      have htake : (d.take e.2.kind.dimension).length = e.2.kind.dimension := by
        rw [List.length_take]
        omega
      have hdrop := ih (d.drop e.2.kind.dimension)
        (fun e' he' => hvec e' (List.mem_cons_of_mem _ he')) (by rw [List.length_drop]; omega)
      have hmove := Variable.move_eq (hvec e (List.mem_cons_self ..)) htake
      simp only [moveEntries, hmove, hdrop, bind, Except.bind]
      rfl
  have hshape : (Tensor.ofList d).shape = [s.dimension] := by rw [Tensor.shape_ofList, hd]
  rw [move, moveWithin, if_pos hshape, Tensor.data_ofList, hentries s.entries d hs hd]
  rfl

/-- A variable and its span are found at one offset, where a translation finds its part. -/
theorem lookup_translateEntries {entries : List (Int × Variable K)} {key : Int} {x : Variable K}
    (h : entries.lookup key = some x) (base : Nat) :
    ∃ offset, offset + x.kind.dimension ≤ total (entries.map fun e => e.2.kind.dimension) ∧
      (layoutFrom base entries).lookup key =
        some (Span.ofLength ((base + offset : Nat) : Int) x.kind.dimension) ∧
      ∀ d, (translateEntries entries d).lookup key =
        some (x.translate ((d.drop offset).take x.kind.dimension)) := by
  induction entries generalizing base with
  | nil => cases h
  | cons e rest ih =>
    obtain ⟨key', y⟩ := e
    simp only [List.lookup_cons] at h
    by_cases hkey : key = key'
    · subst hkey
      simp only [beq_self_eq_true, Option.some.injEq] at h
      subst h
      exact ⟨0, by simp, by simp [layoutFrom], by simp [translateEntries]⟩
    · have hne : (key == key') = false := by simpa using hkey
      rw [hne] at h
      obtain ⟨offset, hle, hlayout, htranslate⟩ := ih h (base + y.kind.dimension)
      refine ⟨y.kind.dimension + offset, ?_, ?_, fun d => ?_⟩
      · simp only [List.map_cons, total_cons]
        omega
      · rw [layoutFrom, List.lookup_cons, hne, ← Nat.add_assoc]
        exact hlayout
      · rw [translateEntries, List.lookup_cons, hne, ← List.drop_drop]
        exact htranslate _

/-- The part of a joint tangent vector that moves the variable under a key. -/
def part (s : Assignment K) (d : List K) (key : Int) : List K :=
  match s.span key with
  | .ok span => span.slice d
  | .error _ => []

/-- Every variable has a span in the joint tangent space as long as its own tangent space, and a
translation adds what the span selects. -/
theorem find_translate {s : Assignment K} {key : Int} {x : Variable K}
    (h : s.find key = .ok x) :
    ∃ span, s.span key = .ok span ∧ span.On s.dimension ∧ span.length = x.kind.dimension ∧
      ∀ d : List K, d.length = s.dimension →
        (s.translate d).find key = .ok (x.translate (s.part d key)) := by
  obtain ⟨offset, hle, hlayout, htranslate⟩ := lookup_translateEntries (lookup_of_find h) 0
  rw [Nat.zero_add] at hlayout
  have hspan : s.span key = .ok (Span.ofLength offset x.kind.dimension) := by
    rw [span, lookup, layout, hlayout]
  have hon : (Span.ofLength offset x.kind.dimension).On s.dimension := by
    refine ⟨⟨?_, ?_⟩, ?_⟩ <;> simp only [Span.ofLength, dimension] <;> omega
  refine ⟨_, hspan, hon, Span.length_ofLength .., fun d hd => ?_⟩
  have hpart : s.part d key = (d.drop offset).take x.kind.dimension := by
    rw [part, hspan]
    exact Span.slice_ofLength (by rw [hd]; exact hle)
  rw [hpart, find, lookup, translate, htranslate]

/-- The part of a variable is as long as its tangent space. -/
theorem length_part {s : Assignment K} {key : Int} {x : Variable K} (h : s.find key = .ok x)
    {d : List K} (hd : d.length = s.dimension) : (s.part d key).length = x.kind.dimension := by
  obtain ⟨span, hspan, hon, hlen, -⟩ := find_translate h
  rw [part, hspan]
  exact (hon.length_slice hd).trans hlen

end Assignment

end

/-! ## Translations one after the other -/

section
variable [AddMonoid K]

namespace Variable

@[simp] theorem length_translate (x : Variable K) (d : List K) :
    (x.translate d).coordinates.length = x.coordinates.length := List.length_ofFn

/-- The coordinates of a translated variable. -/
theorem getD_translate {x : Variable K} {i : Nat} (hi : i < x.coordinates.length) (d : List K) :
    (x.translate d).coordinates.getD i 0 = x.coordinates.getD i 0 + d.getD i 0 := by
  change (List.ofFn _).getD i 0 = _
  rw [List.getD_eq_getElem _ _ (by simpa using hi), List.getElem_ofFn]
  rfl

/-- Variables of one kind with coordinates of one length that agree are equal. -/
theorem ext_getD {x y : Variable K} (hkind : x.kind = y.kind)
    (hlen : x.coordinates.length = y.coordinates.length)
    (h : ∀ i, i < y.coordinates.length → x.coordinates.getD i 0 = y.coordinates.getD i 0) :
    x = y := by
  refine Variable.ext hkind (List.ext_getElem hlen fun i h₁ h₂ => ?_)
  rw [← List.getD_eq_getElem _ 0 h₁, ← List.getD_eq_getElem _ 0 h₂]
  exact h i h₂

theorem translate_translate (x : Variable K) {d e : List K} (h : d.length = e.length) :
    (x.translate d).translate e = x.translate (Dense.add d e) := by
  refine ext_getD rfl (by simp) fun i hi => ?_
  have hi : i < x.coordinates.length := by simpa using hi
  rw [getD_translate (by simpa using hi), getD_translate hi, getD_translate hi, Dense.getD_add h,
    add_assoc]

/-- Motion by zeros keeps a variable where it is. -/
theorem translate_zeros (x : Variable K) (n : Nat) : x.translate (List.replicate n 0) = x := by
  refine ext_getD rfl (by simp) fun i hi => ?_
  have hzero : (List.replicate n (0 : K)).getD i 0 = 0 :=
    List.getElem?_getD_replicate_default_eq 0 n i
  rw [getD_translate hi, hzero, add_zero]

end Variable

/-- Motion by zeros keeps an assignment as it is. -/
theorem Assignment.translate_zeros (s : Assignment K) (n : Nat) :
    s.translate (List.replicate n 0) = s := by
  have hentries : ∀ (entries : List (Int × Variable K)) (n : Nat),
      translateEntries entries (List.replicate n 0) = entries := by
    intro entries
    induction entries with
    | nil => exact fun _ => rfl
    | cons entry rest ih =>
      intro n
      rw [translateEntries, List.take_replicate, List.drop_replicate, ih, Variable.translate_zeros]
  exact congrArg Assignment.mk (hentries s.entries n)

/-- Motion by nothing keeps an assignment as it is. -/
theorem Assignment.translate_nil (s : Assignment K) : s.translate [] = s := s.translate_zeros 0

/-- Translations one after the other add up. -/
theorem Assignment.translate_translate (s : Assignment K) {d e : List K}
    (h : d.length = e.length) : (s.translate d).translate e = s.translate (Dense.add d e) := by
  have hentries : ∀ (entries : List (Int × Variable K)) {d e : List K}, d.length = e.length →
      translateEntries (translateEntries entries d) e =
        translateEntries entries (Dense.add d e) := by
    intro entries
    induction entries with
    | nil => exact fun _ => rfl
    | cons entry rest ih =>
      intro d e hlen
      simp only [translateEntries, Variable.kind_translate]
      rw [ih (by simp [hlen]), Variable.translate_translate _ (by simp [hlen])]
      simp only [Dense.add, List.take_zipWith, List.drop_zipWith]
  exact congrArg Assignment.mk (hentries s.entries h)

end

end LeastSquares
