import LeastSquares.Proofs.Displacements
import LeastSquares.Proofs.Stretching
import LeastSquares.Residual.Measurement

/-!
# Measured differences of any length

A measured difference is combined with the displacement of two variables like any two vectors, which
combine when their lengths agree or one of them has a single entry (`Joins`). Nothing else looks at
the length of a measured difference. Between points of a space of dimension `n`, a difference of `m`
entries therefore makes a residual exactly if `m = n`, `m = 1` or `n = 1`
(`Residual.between_value`): a single entry applies to every coordinate, and a displacement along a
line is compared with every entry, in a residual of more rows than the line has coordinates.
-/

namespace LeastSquares

variable {α : Type}

/-! ## Traced vectors -/

namespace Traced

variable [Zero α] [Add α] {s t : Traced α}

/-- Traced tensors combine if their values do. -/
theorem exists_combine {f : α → α → α} (left right : α → α → α → α) {v : Tensor α}
    (h : s.value.combine f t.value = .ok v) :
    ∃ u, combine f left right s t = .ok u ∧ u.value = v := by
  unfold combine
  rw [h]
  exact ⟨_, rfl, rfl⟩

/-- Traced tensors are refused like their values. -/
theorem combine_eq_error {f : α → α → α} (left right : α → α → α → α) {e : Error}
    (h : s.value.combine f t.value = .error e) : combine f left right s t = .error e := by
  unfold combine
  rw [h]
  rfl

theorem exists_sub [Sub α] [Neg α] {v : Tensor α} (h : s.value.combine (· - ·) t.value = .ok v) :
    ∃ u, s.sub t = .ok u ∧ u.value = v :=
  exists_combine _ _ h

theorem sub_eq_error [Sub α] [Neg α] {e : Error}
    (h : s.value.combine (· - ·) t.value = .error e) : s.sub t = .error e :=
  combine_eq_error _ _ h

end Traced

/-! ## The residual of two variables -/

namespace Residual

variable [Zero α] [Add α] [Sub α] [Neg α] [Mul α] [Elementary α] {s : Assignment α}
  {first second : Int} {x y : Variable α}

/-- The residual of two points of one vector space is the difference of their coordinates, less the
measured one, weighted. -/
theorem value_between (hx : s.find first = .ok x) (hy : s.find second = .ok y)
    (hvec : x.kind.IsVector) (hkind : y.kind = x.kind) (difference : List α) (weight : α) :
    (between difference weight first second).value s =
      ((Tensor.ofList (Dense.sub y.coordinates x.coordinates)).combine (· - ·)
        (.ofList difference)).map (·.map (· * weight)) := by
  have hlen : y.coordinates.length = x.coordinates.length := by
    rw [Variable.length_coordinates hvec, Variable.length_coordinates (hkind ▸ hvec), hkind]
  have hread : readKind s second x.kind = .ok (.coordinates second y) := by
    rw [readKind, Assignment.get_eq_ok.2 ⟨hy, hkind⟩]
    rfl
  obtain ⟨d, hd, hvalue⟩ := Traced.exists_sub (s := .coordinates second y)
    (t := .coordinates first x) (Tensor.combine_ofList (· - ·) hlen)
  have hdisplacement : Traced.displacement x.kind (.coordinates first x) (.coordinates second y) =
      .ok d := by
    cases hk : x.kind with
    | vector name n => exact hd
    | manifold name n => exact (hk ▸ hvec : (Kind.manifold name n).IsVector).elim
  have hcombine : d.value.combine (· - ·) (Traced.constant (.ofList difference)).value =
      (Tensor.ofList (Dense.sub y.coordinates x.coordinates)).combine (· - ·)
        (.ofList difference) := by
    rw [hvalue]
    rfl
  simp only [value, between, hx, hread, hdisplacement, bind, Except.bind]
  rw [← hcombine]
  cases hr : d.value.combine (· - ·) (Traced.constant (.ofList difference)).value with
  | error e =>
    rw [Traced.sub_eq_error hr]
    rfl
  | ok v =>
    obtain ⟨r, hr', rfl⟩ := Traced.exists_sub hr
    rw [hr']
    rfl

/-- The weighted difference of the coordinates at one place, less the entry of a measured difference
at another. -/
def measuredEntry (x y : Variable α) (difference : List α) (weight : α) (i j : Nat) : α :=
  (y.coordinates.getD i 0 - x.coordinates.getD i 0 - difference.getD j 0) * weight

section
variable (hx : s.find first = .ok x) (hy : s.find second = .ok y) (hvec : x.kind.IsVector)
  (hkind : y.kind = x.kind) (difference : List α) (weight : α)
include hx hy hvec hkind

/-- A difference of a length that combines makes a residual of the common length. -/
theorem exists_value_between (h : Joins x.kind.dimension difference.length) :
    ∃ r, (between difference weight first second).value s = .ok (.ofList r) ∧
      r.length = joinedLength x.kind.dimension difference.length ∧
      ∀ i < r.length, r.getD i 0 = measuredEntry x y difference weight
        (stretchedPlace x.kind.dimension i) (stretchedPlace difference.length i) := by
  have hxlen := Variable.length_coordinates hvec
  have hylen : y.coordinates.length = x.kind.dimension := by
    rw [Variable.length_coordinates (hkind ▸ hvec), hkind]
  have hlen := Variable.length_sub hvec hkind
  obtain ⟨zs, hzs, hzslen, hentries⟩ := Tensor.combine_ofList_of_joins (· - ·) (hlen ▸ h)
  rw [hlen] at hzslen hentries
  refine ⟨zs.map (· * weight), ?_, by rw [List.length_map, hzslen], fun i hi => ?_⟩
  · rw [value_between hx hy hvec hkind, hzs]
    exact congrArg Except.ok (Tensor.map_ofList ..)
  · rw [List.length_map] at hi
    have hplace := stretchedPlace_lt (hzslen ▸ hi)
    have hmap : (zs.map (· * weight)).getD i 0 = zs.getD i 0 * weight := by
      simp [List.getD_eq_getElem?_getD, hi]
    rw [hmap, hentries i hi 0 0 0, measuredEntry]
    congr 2
    simp [Dense.sub, List.getD_eq_getElem?_getD, hxlen, hylen, hplace]

/-- Between two points of one vector space, a measured difference makes a residual exactly if it has
as many entries as the points have coordinates, or there is a single entry, or a single coordinate.
With as many entries as coordinates, each entry of the residual compares the two at its own place;
else it compares the places that it repeats. Any other difference is refused. -/
theorem between_value :
    (difference.length = x.kind.dimension →
      ∃ r, (between difference weight first second).value s = .ok (.ofList r) ∧
        r.length = x.kind.dimension ∧
        ∀ i < x.kind.dimension, r.getD i 0 = measuredEntry x y difference weight i i) ∧
    (Joins x.kind.dimension difference.length →
      ∃ r, (between difference weight first second).value s = .ok (.ofList r) ∧
        r.length = joinedLength x.kind.dimension difference.length ∧
        ∀ i < r.length, r.getD i 0 = measuredEntry x y difference weight
          (stretchedPlace x.kind.dimension i) (stretchedPlace difference.length i)) ∧
    (¬Joins x.kind.dimension difference.length →
      (between difference weight first second).value s = .error .lengthMismatch) := by
  refine ⟨fun h => ?_, exists_value_between hx hy hvec hkind difference weight, fun h => ?_⟩
  · obtain ⟨r, hr, hrlen, hentries⟩ :=
      exists_value_between hx hy hvec hkind difference weight (.inl h.symm)
    have hrn : r.length = x.kind.dimension := by
      rw [hrlen, joinedLength, h, ite_self]
    refine ⟨r, hr, hrn, fun i hi => ?_⟩
    rw [hentries i (hrn ▸ hi), stretchedPlace_of_lt hi, stretchedPlace_of_lt (h ▸ hi)]
  · have hlen := Variable.length_sub hvec hkind
    rw [value_between hx hy hvec hkind, Tensor.combine_ofList_of_not_joins _ (hlen ▸ h)]
    rfl

end

/-- Between two points of the plane, what differences of two, one and three entries make. -/
theorem between_value_plane :
    let s : Assignment ℝ := ⟨[(1, ⟨.plane, [1, 2], rfl⟩), (2, ⟨.plane, [4, 6], rfl⟩)]⟩
    (∃ r, (between [1, 0] 2 1 2).value s = .ok (.ofList r) ∧ r.length = 2 ∧
      r.getD 0 0 = 4 ∧ r.getD 1 0 = 8) ∧
    (∃ r, (between [1] 2 1 2).value s = .ok (.ofList r) ∧ r.length = 2 ∧
      r.getD 0 0 = 4 ∧ r.getD 1 0 = 6) ∧
    (between [1, 0, 0] 2 1 2).value s = .error .lengthMismatch := by
  intro s
  have hx : s.find 1 = .ok ⟨.plane, [1, 2], rfl⟩ := rfl
  have hy : s.find 2 = .ok ⟨.plane, [4, 6], rfl⟩ := rfl
  have hall := between_value hx hy trivial rfl
  refine ⟨?_, ?_, (hall [1, 0, 0] 2).2.2 (by decide)⟩
  · obtain ⟨r, hr, hrlen, hentries⟩ := (hall [1, 0] 2).1 rfl
    refine ⟨r, hr, hrlen, ?_, ?_⟩
    · rw [hentries 0 (by decide)]
      norm_num [measuredEntry]
    · rw [hentries 1 (by decide)]
      norm_num [measuredEntry]
  · obtain ⟨r, hr, hrlen, hentries⟩ := (hall [1] 2).2.1 (by decide)
    have hrlen : r.length = 2 := hrlen
    refine ⟨r, hr, hrlen, ?_, ?_⟩
    · rw [hentries 0 (by omega)]
      norm_num [measuredEntry, stretchedPlace, Kind.plane, Kind.dimension]
    · rw [hentries 1 (by omega)]
      norm_num [measuredEntry, stretchedPlace, Kind.plane, Kind.dimension]

/-- A difference of one entry makes a residual between points of the plane, and a difference of two
entries makes one of two rows between points of the line. -/
theorem between_repeats :
    let s : Assignment ℝ := ⟨[(1, ⟨.plane, [1, 2], rfl⟩), (2, ⟨.plane, [4, 6], rfl⟩),
      (3, ⟨.line, [1], rfl⟩), (4, ⟨.line, [4], rfl⟩)]⟩
    (between [1] 1 1 2).value s = .ok (.ofList [2, 3]) ∧
      (between [1, 2] 1 3 4).value s = .ok (.ofList [2, 1]) ∧
      ¬(∀ difference : List ℝ, (∃ r, (between difference 1 1 2).value s = .ok r) ↔
        difference.length = Kind.plane.dimension) ∧
      ¬(∀ difference : List ℝ, (∃ r, (between difference 1 3 4).value s = .ok r) ↔
        difference.length = Kind.line.dimension) := by
  intro s
  have hx : s.find 1 = .ok ⟨.plane, [1, 2], rfl⟩ := rfl
  have hy : s.find 2 = .ok ⟨.plane, [4, 6], rfl⟩ := rfl
  have hplane : (between [1] 1 1 2).value s = .ok (.ofList [2, 3]) := by
    rw [value_between hx hy trivial rfl]
    change Except.ok (Tensor.ofList [((4 : ℝ) - 1 - 1) * 1, (6 - 2 - 1) * 1]) = _
    norm_num
  have hu : s.find 3 = .ok ⟨.line, [1], rfl⟩ := rfl
  have hv : s.find 4 = .ok ⟨.line, [4], rfl⟩ := rfl
  have hline : (between [1, 2] 1 3 4).value s = .ok (.ofList [2, 1]) := by
    rw [value_between hu hv trivial rfl]
    change Except.ok (Tensor.ofList [((4 : ℝ) - 1 - 1) * 1, (4 - 1 - 2) * 1]) = _
    norm_num
  refine ⟨hplane, hline, fun h => ?_, fun h => ?_⟩
  · have hlen := (h [1]).1 ⟨_, hplane⟩
    revert hlen
    decide
  · have hlen := (h [1, 2]).1 ⟨_, hline⟩
    revert hlen
    decide

end Residual

end LeastSquares
