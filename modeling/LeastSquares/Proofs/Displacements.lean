import LeastSquares.Proofs.Reals
import LeastSquares.Proofs.Shapes

/-!
# Displacements of assignments

The displacement between two assignments of one shape is the joint tangent vector that the
displacements of their variables make up, in order of insertion (`Assignment.displacement`). Points
of vector spaces move by addition, so the displacement is the one tangent vector that leads from one
point to the other (`Variable.translate_eq_iff`). The parts of a joint tangent vector lie one behind
the other and leave nothing out, so the same is true of assignments
(`Assignment.translate_eq_iff`).

Joint tangent vectors therefore act on the assignments of one shape like the vectors of a space on
its points, freely and transitively (`Assignment.move_free_transitive`). A motion is refused for the
shape of its tangent vector, and for nothing else.
-/

namespace LeastSquares

variable {K : Type}

/-! ## Variables -/

namespace Variable

/-- The difference between points of one vector space is as long as a tangent vector. -/
theorem length_sub [Sub K] {x y : Variable K} (hx : x.kind.IsVector) (hkind : y.kind = x.kind) :
    (Dense.sub y.coordinates x.coordinates).length = x.kind.dimension := by
  rw [Dense.sub, List.length_zipWith, length_coordinates hx, length_coordinates (hkind ▸ hx), hkind,
    Nat.min_self]

/-- The displacement between two points of a vector space is the difference of their coordinates. -/
theorem displacement_eq [Sub K] [Elementary K] {x y : Variable K} (hx : x.kind.IsVector)
    (hkind : y.kind = x.kind) :
    x.displacement y = .ok (.ofList (Dense.sub y.coordinates x.coordinates)) := by
  unfold displacement
  split
  · exact if_pos hkind.symm
  · rename_i hkind
    rw [hkind] at hx
    exact hx.elim

/-- A translation leads to another point of the vector space exactly along the difference of the
coordinates. -/
theorem translate_eq_iff [AddCommGroup K] {x y : Variable K} (hx : x.kind.IsVector)
    (hkind : y.kind = x.kind) {d : List K} (hd : d.length = x.kind.dimension) :
    x.translate d = y ↔ d = Dense.sub y.coordinates x.coordinates := by
  have hxlen := length_coordinates hx
  have hylen : y.coordinates.length = x.coordinates.length := by
    rw [length_coordinates (hkind ▸ hx), hkind, hxlen]
  have hlen : d.length = x.coordinates.length := hd.trans hxlen.symm
  have hadd := coordinates_translate hlen
  constructor
  · rintro rfl
    rw [hadd]
    refine List.ext_getElem (by simp [Dense.sub, Dense.add, hlen]) fun i h₁ h₂ => ?_
    simp [Dense.sub, Dense.add]
  · intro h
    refine Variable.ext hkind.symm ?_
    rw [hadd, h, Dense.add_sub_cancel hylen.symm]

end Variable

/-! ## Assignments -/

namespace Assignment

/-- The displacements from the variables of one assignment to those of another, in order. -/
def displacements [Sub K] [Elementary K] (s t : Assignment K) :
    Except Error (List (Tensor K)) :=
  s.keys.mapM fun key => do
    let x ← s.find key
    let y ← t.find key
    x.displacement y

/-- The displacements of the variables, one behind the other. -/
def displacement [Sub K] [Elementary K] (s t : Assignment K) : Except Error (List K) := do
  let parts ← s.displacements t
  .ok (parts.flatMap (·.data))

/-- Entries of one key with variables of one kind. -/
def Matching (e m : Int × Variable K) : Prop := m.1 = e.1 ∧ m.2.kind = e.2.kind

/-- Assignments of one shape have matching entries. -/
theorem matching_of_shape {s t : Assignment K} (h : t.shape = s.shape) :
    List.Forall₂ Matching s.entries t.entries := by
  rw [shape, shape, ← List.forall₂_eq_eq_eq, List.forall₂_map_left_iff,
    List.forall₂_map_right_iff] at h
  exact h.flip.imp fun _ _ he => Prod.mk.inj he

section
variable [Sub K]

/-- The differences of coordinates that lead from entries to matching ones, in order. -/
def differences (entries others : List (Int × Variable K)) : List (List K) :=
  List.zipWith (fun e m => Dense.sub m.2.coordinates e.2.coordinates) entries others

theorem length_differences {entries others : List (Int × Variable K)}
    (h : List.Forall₂ Matching entries others) (hv : ∀ e ∈ entries, e.2.kind.IsVector) :
    (differences entries others).flatten.length = extent entries := by
  induction h with
  | nil => rfl
  | @cons e m entries others hem _ ih =>
    have hhead := Variable.length_sub (hv e (List.mem_cons_self ..)) hem.2
    have htail := ih fun e he => hv e (List.mem_cons_of_mem _ he)
    rw [differences, List.zipWith_cons_cons, List.flatten_cons, List.length_append, hhead,
      ← differences, htail]
    rfl

variable [Elementary K] {s t : Assignment K}

/-- The displacement between assignments of points of vector spaces consists of differences. -/
theorem displacement_eq (hs : s.keys.Nodup) (hv : s.IsVector) (h : t.shape = s.shape) :
    s.displacement t = .ok (differences s.entries t.entries).flatten := by
  have ht : t.keys.Nodup := by rwa [keys_eq_of_shape h]
  have hentries : ∀ {es ms : List (Int × Variable K)}, List.Forall₂ Matching es ms →
      (∀ e ∈ es, e ∈ s.entries) → (∀ m ∈ ms, m ∈ t.entries) →
      (es.map (·.1)).mapM (fun key => do
        let x ← s.find key
        let y ← t.find key
        x.displacement y) = .ok ((differences es ms).map .ofList) := by
    intro es ms hmatching
    induction hmatching with
    | nil => exact fun _ _ => rfl
    | @cons e m es ms hem _ ih =>
      intro hes hms
      obtain ⟨hkey, hkind⟩ := hem
      have he := hes e (List.mem_cons_self ..)
      have hx : s.find e.1 = .ok e.2 := find_of_mem hs he
      have hy : t.find e.1 = .ok m.2 := hkey ▸ find_of_mem ht (hms m (List.mem_cons_self ..))
      have hrest := ih (fun e he => hes e (List.mem_cons_of_mem _ he))
        fun m hm => hms m (List.mem_cons_of_mem _ hm)
      rw [List.map_cons, List.mapM_cons, hrest]
      simp only [hx, hy, Variable.displacement_eq (hv e he) hkind, bind, Except.bind]
      rfl
  have hall := hentries (matching_of_shape h) (fun _ => id) fun _ => id
  rw [displacement, displacements, keys, hall]
  change Except.ok _ = Except.ok _
  rw [List.flatMap_map]
  simp only [Tensor.data_ofList, List.flatMap_id']

end

section
variable [AddCommGroup K] {s t : Assignment K}

/-- Translated entries are the matching ones exactly along the differences of the coordinates. -/
theorem translateEntries_eq_iff {entries others : List (Int × Variable K)}
    (h : List.Forall₂ Matching entries others) (hv : ∀ e ∈ entries, e.2.kind.IsVector) {d : List K}
    (hd : d.length = extent entries) :
    translateEntries entries d = others ↔ d = (differences entries others).flatten := by
  induction h generalizing d with
  | nil =>
    have hnil : d = [] := List.eq_nil_of_length_eq_zero hd
    simp [translateEntries, differences, hnil]
  | @cons e m entries others hem _ ih =>
    obtain ⟨key, x⟩ := e
    obtain ⟨key', y⟩ := m
    obtain ⟨rfl, hkind⟩ : key' = key ∧ y.kind = x.kind := hem
    have hx : x.kind.IsVector := hv _ (List.mem_cons_self ..)
    have hlen : d.length = x.kind.dimension + extent entries := hd
    have hfront : (d.take x.kind.dimension).length = x.kind.dimension := by
      rw [List.length_take]
      omega
    have hback : (d.drop x.kind.dimension).length = extent entries := by
      rw [List.length_drop]
      omega
    have hsub := Variable.length_sub hx hkind
    have hhead := Variable.translate_eq_iff hx hkind hfront
    have htail := ih (fun e he => hv e (List.mem_cons_of_mem _ he)) hback
    -- a vector is its front part and the rest, and the difference of the first points is the front
    have hsplit :
        d = Dense.sub y.coordinates x.coordinates ++ (differences entries others).flatten ↔
        d.take x.kind.dimension = Dense.sub y.coordinates x.coordinates ∧
          d.drop x.kind.dimension = (differences entries others).flatten := by
      constructor
      · intro h
        rw [h, ← hsub, List.take_left, List.drop_left]
        exact ⟨rfl, rfl⟩
      · rintro ⟨htake, hdrop⟩
        rw [← htake, ← hdrop, List.take_append_drop]
    simp only [translateEntries, List.cons.injEq, Prod.mk.injEq, true_and, hhead, htail]
    exact hsplit.symm

/-- A translation leads to another assignment of the shape exactly along the differences. -/
theorem translate_eq_iff (hv : s.IsVector) (h : t.shape = s.shape) {d : List K}
    (hd : d.length = s.dimension) :
    s.translate d = t ↔ d = (differences s.entries t.entries).flatten := by
  rw [← translateEntries_eq_iff (matching_of_shape h) hv hd, translate, Assignment.mk.injEq]

variable [Elementary K]

/-- A motion of variables of accepting kinds is refused exactly for a tangent vector of another
shape than the joint tangent space has. -/
theorem move_eq_error_iff (hs : s.Accepting) {d : Tensor K} :
    s.move d = .error (.tangentShape s.dimension d.shape) ↔ d.shape ≠ [s.dimension] := by
  constructor
  · intro h hshape
    obtain ⟨t, ht⟩ := exists_move hs (Tensor.length_data_of_shape hshape)
    rw [Tensor.ofList_data hshape, h] at ht
    cases ht
  · intro hshape
    rw [move, moveWithin, if_neg hshape]

/-- Joint tangent vectors act on the assignments of one shape freely and transitively. Every motion
along one leads to an assignment of the shape, and nothing else is a motion; the vector of zeros
leaves an assignment as it is, two motions one after the other are the motion along the sum, and
from one assignment to another leads their displacement, and nothing else. -/
theorem move_free_transitive (hs : s.Reachable) (hv : s.IsVector) :
    (∀ d : Tensor K, s.move d = .error (.tangentShape s.dimension d.shape) ↔
      d.shape ≠ [s.dimension]) ∧
    (∀ d : Tensor K, d.shape = [s.dimension] → ∃ t, s.move d = .ok t ∧ t.shape = s.shape) ∧
    s.move (.ofList (List.replicate s.dimension 0)) = .ok s ∧
    (∀ d e : List K, d.length = s.dimension → e.length = s.dimension →
      ∃ t u, s.move (.ofList d) = .ok t ∧ t.move (.ofList e) = .ok u ∧
        s.move (.ofList (Dense.add d e)) = .ok u) ∧
    ∀ t : Assignment K, t.shape = s.shape →
      ∃ d, s.displacement t = .ok d ∧ d.length = s.dimension ∧
        ∀ e : Tensor K, s.move e = .ok t ↔ e = .ofList d := by
  refine ⟨fun d => move_eq_error_iff hv.accepting, fun d hd => ?_, ?_, fun d e hd he => ?_,
    fun t ht => ?_⟩
  · obtain ⟨t, ht⟩ := exists_move hv.accepting (Tensor.length_data_of_shape hd)
    rw [Tensor.ofList_data hd] at ht
    exact ⟨t, ht, shape_move ht⟩
  · rw [move_eq hv List.length_replicate, translate_zeros]
  · have hlen : d.length = e.length := hd.trans he.symm
    have hsum : (Dense.add d e).length = s.dimension := by
      rw [Dense.add, List.length_zipWith, hd, he, Nat.min_self]
    refine ⟨_, _, move_eq hv hd, move_eq (hv.translate d) (by rwa [dimension_translate]), ?_⟩
    rw [move_eq hv hsum, translate_translate s hlen]
  · have hlen := length_differences (matching_of_shape ht) hv
    refine ⟨_, displacement_eq hs.nodup_keys hv ht, hlen, fun e => ?_⟩
    constructor
    · intro he
      have hshape : e.shape = [s.dimension] := by
        by_contra hne
        rw [(move_eq_error_iff hv.accepting).2 hne] at he
        cases he
      have hdata := Tensor.length_data_of_shape hshape
      rw [← Tensor.ofList_data hshape, move_eq hv hdata, Except.ok.injEq,
        translate_eq_iff hv ht hdata] at he
      rw [← he, Tensor.ofList_data hshape]
    · rintro rfl
      rw [move_eq hv hlen, (translate_eq_iff hv ht hlen).2 rfl]

end

/-- A point of a named plane, a point without coordinates and a point of a line, and where a motion
along three numbers leads them. -/
theorem move_free_transitive_mixed :
    let s : Assignment ℝ := ⟨[(7, ⟨.vector "Point2" 2, [1, 4], rfl⟩),
      (5, ⟨.vector "Vector0" 0, [], rfl⟩), (3, ⟨.line, [2], rfl⟩)]⟩
    let t : Assignment ℝ := ⟨[(7, ⟨.vector "Point2" 2, [3, 3], rfl⟩),
      (5, ⟨.vector "Vector0" 0, [], rfl⟩), (3, ⟨.line, [8], rfl⟩)]⟩
    s.Reachable ∧ s.IsVector ∧ t.shape = s.shape ∧ s.displacement t = .ok [2, -1, 6] ∧
      (∀ e : Tensor ℝ, s.move e = .ok t ↔ e = .ofList [2, -1, 6]) ∧
      s.move (.ofList [0, 0, 0]) = .ok s ∧
      s.move (.ofList [2, -1]) = .error (.tangentShape 3 [2]) ∧
      ∃ u, s.move (.ofList [2, 0, 0]) = .ok u ∧ u.move (.ofList [0, -1, 6]) = .ok t := by
  intro s t
  have hs : s.Reachable := .of_nodup (by decide)
  have hv : s.IsVector := by simp [s, Assignment.IsVector, Kind.line, Kind.IsVector]
  obtain ⟨hrefused, -, hzero, hadd, hdisplacement⟩ := move_free_transitive hs hv
  obtain ⟨d, hd, -, hunique⟩ := hdisplacement t rfl
  obtain ⟨u, v, hu, hv', hsum⟩ := hadd [2, 0, 0] [0, -1, 6] rfl rfl
  have hvalue : d = [2, -1, 6] := by
    obtain rfl : [3 - 1, 3 - 4, 8 - 2] = d := Except.ok.inj hd
    norm_num
  have hadded : Dense.add [2, 0, 0] [0, -1, 6] = ([2, -1, 6] : List ℝ) := by
    simp [Dense.add]
  rw [hvalue] at hd hunique
  rw [hadded, (hunique _).2 rfl] at hsum
  cases hsum
  exact ⟨hs, hv, rfl, hd, hunique, hzero, (hrefused (.ofList [2, -1])).2 (by decide), u, hu, hv'⟩

end Assignment

end LeastSquares
