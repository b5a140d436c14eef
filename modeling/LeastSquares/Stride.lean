import LeastSquares.Error

/-!
# Strides

A stride is a range of integers with a step from one position to the next. Its bounds are a span
(`Stride.toSpan`), and a part of an axis is selected by this span, whatever the step is. So a stride
may have another number of positions than it selects.

A stride is solid when it has as many positions as its span (`Stride.Solid`). Then it lists the same
positions (`Stride.Solid.positions_eq`). The contiguous strides, those of step one, are solid
(`Stride.Contiguous.solid`), and every span is one of them (`Span.toStride`).
-/

namespace LeastSquares

/-- A range with a step. -/
structure Stride extends Span where
  /-- The distance from one position to the next; positions descend if it is negative. -/
  step : Int
  step_ne_zero : step ≠ 0
deriving DecidableEq, Repr

/-- The positions of a span, with step one. -/
@[coe] def Span.toStride (s : Span) : Stride := ⟨s, 1, by decide⟩

instance : Coe Span Stride := ⟨Span.toStride⟩

namespace Stride

/-- The stride of the given bounds and step. -/
def ofRange (start stop step : Int) : Except Error Stride :=
  if h : step = 0 then .error .zeroStep else .ok ⟨⟨start, stop⟩, step, h⟩

/-- The number of positions; none when the step leads away from the upper bound. -/
def length (s : Stride) : Nat :=
  if 0 < s.step then ((s.stop - s.start + s.step - 1) / s.step).toNat
  else ((s.start - s.stop - s.step - 1) / -s.step).toNat

/-- The positions in order. -/
def positions (s : Stride) : List Int :=
  (List.range s.length).map fun i : Nat => s.start + i * s.step

/-- Whether two strides list the same positions. -/
def alike (s t : Stride) : Bool :=
  s.length == t.length &&
    (s.length == 0 || (s.start == t.start && (s.length == 1 || s.step == t.step)))

/-- A stride of step one. -/
def Contiguous (s : Stride) : Prop := s.step = 1

instance (s : Stride) : Decidable s.Contiguous := inferInstanceAs (Decidable (_ = _))

/-- A stride with as many positions as lie between its bounds. -/
def Solid (s : Stride) : Prop := s.length = s.toSpan.length

instance (s : Stride) : Decidable s.Solid := inferInstanceAs (Decidable (_ = _))

@[simp] theorem length_positions (s : Stride) : s.positions.length = s.length := by
  simp [positions]

theorem getElem_positions (s : Stride) {i : Nat} (h : i < s.positions.length) :
    s.positions[i] = s.start + i * s.step := by
  simp [positions]

/-- Strides are alike exactly when they list the same positions. -/
theorem alike_iff {s t : Stride} : s.alike t = true ↔ s.positions = t.positions := by
  simp only [alike, Bool.and_eq_true, Bool.or_eq_true, beq_iff_eq]
  constructor
  · rintro ⟨hlen, hplaces⟩
    refine List.ext_getElem (by simpa using hlen) fun i hi _ => ?_
    rw [length_positions] at hi
    rw [getElem_positions, getElem_positions]
    obtain hempty | ⟨hstart, hone | hstep⟩ := hplaces
    · omega
    · obtain rfl : i = 0 := by omega
      simp [hstart]
    · rw [hstart, hstep]
  · intro h
    have hlen : s.length = t.length := by simpa using congrArg List.length h
    have hplace : ∀ i < s.length, s.start + i * s.step = t.start + i * t.step := by
      intro i hi
      have hs : i < s.positions.length := by rwa [length_positions]
      have ht : i < t.positions.length := by rwa [length_positions, ← hlen]
      rw [← getElem_positions s hs, ← getElem_positions t ht]
      exact getElem_congr_coll h
    refine ⟨hlen, ?_⟩
    by_cases hempty : s.length = 0
    · exact .inl hempty
    · have hstart : s.start = t.start := by simpa using hplace 0 (by omega)
      refine .inr ⟨hstart, ?_⟩
      by_cases hone : s.length = 1
      · exact .inl hone
      · have hnext := hplace 1 (by omega)
        exact .inr (by omega)

theorem Contiguous.length_eq {s : Stride} (h : s.Contiguous) : s.length = s.toSpan.length := by
  rw [Contiguous] at h
  rw [length, if_pos (by omega), h, Int.ediv_one, Span.length]
  congr 1
  omega

theorem Contiguous.solid {s : Stride} (h : s.Contiguous) : s.Solid := h.length_eq

/-- A solid stride of several positions has step one. -/
theorem Solid.step_eq {s : Stride} (h : s.Solid) (hseveral : 1 < s.length) : s.step = 1 := by
  have hne := s.step_ne_zero
  rw [Solid, Span.length] at h
  rw [length] at h hseveral
  split at h
  · rename_i hup
    rw [if_pos hup] at hseveral
    have hmul := Int.ediv_mul_le (s.stop - s.start + s.step - 1) hne
    have hcount : (s.stop - s.start + s.step - 1) / s.step = s.stop - s.start := by omega
    rw [hcount, Int.sub_mul] at hmul
    refine Decidable.byContradiction fun hstep => ?_
    have hgap : 0 < (s.stop - s.start - 1) * (s.step - 1) :=
      Int.mul_pos (by omega) (by omega)
    rw [Int.mul_sub, Int.sub_mul, Int.sub_mul] at hgap
    omega
  · -- a descending stride has positions only where its span has none
    rename_i hdown
    rw [if_neg hdown] at hseveral
    have hnone : (s.start - s.stop - s.step - 1) / -s.step < 1 :=
      Int.ediv_lt_of_lt_mul (by omega) (by omega)
    omega

/-- A solid stride lists the positions between its bounds. -/
theorem Solid.positions_eq {s : Stride} (h : s.Solid) : s.positions = s.toSpan.positions := by
  refine List.ext_getElem (by rw [length_positions, Span.length_positions, h]) fun i hi _ => ?_
  rw [length_positions] at hi
  rw [getElem_positions]
  simp only [Span.positions, List.getElem_map, List.getElem_range]
  obtain rfl | hpos := Nat.eq_zero_or_pos i
  · simp
  · rw [h.step_eq (by omega), Int.mul_one]

end Stride

namespace Span

variable (s : Span)

@[simp] theorem toSpan_toStride : (s : Stride).toSpan = s := rfl

@[simp] theorem step_toStride : (s : Stride).step = 1 := rfl

theorem contiguous_toStride : (s : Stride).Contiguous := rfl

theorem solid_toStride : (s : Stride).Solid := s.contiguous_toStride.solid

@[simp] theorem length_toStride : (s : Stride).length = s.length := s.contiguous_toStride.length_eq

@[simp] theorem positions_toStride : (s : Stride).positions = s.positions :=
  s.solid_toStride.positions_eq

end Span

/-- A contiguous stride is its span. -/
theorem Stride.Contiguous.toStride_toSpan {s : Stride} (h : s.Contiguous) :
    s.toSpan.toStride = s := by
  obtain ⟨span, step, hne⟩ := s
  cases h
  rfl

end LeastSquares
