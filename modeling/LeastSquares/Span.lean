/-!
# Spans of positions

A span is a half-open range of integers. Block-structured vectors and matrices place each run of
their scalars by one, and a store of variables gives each variable one of its own. Two spans are
compared as sets of positions listed in order, so all spans without a position are alike whatever
their bounds (`Span.alike_iff`).

A span selects part of an axis of `n` positions in the way a slice does: a negative bound counts
from the end of the axis, then both bounds are clipped to it (`Span.lower`, `Span.extent`). On a
span of the axis itself this is the span (`Span.lower_of_le`, `Span.extent_of_le`).
-/

namespace LeastSquares

/-- The positions from `start` up to, but not including, `stop`. -/
structure Span where
  /-- The first position, if there is any. -/
  start : Int
  /-- The bound behind the last position. -/
  stop : Int
deriving DecidableEq, Repr

namespace Span

/-- The number of positions; none when the bounds are inverted. -/
def length (s : Span) : Nat := (s.stop - s.start).toNat

/-- The positions in ascending order. -/
def positions (s : Span) : List Int := (List.range s.length).map fun i : Nat => s.start + i

/-- Moves both bounds by `offset`. -/
def shift (s : Span) (offset : Int) : Span := ⟨s.start + offset, s.stop + offset⟩

/-- The span of `n` positions that begins at `start`. -/
def ofLength (start : Int) (n : Nat) : Span := ⟨start, start + n⟩

/-- Whether two spans hold the same positions. -/
def alike (s t : Span) : Bool :=
  s.length == t.length && (s.length == 0 || s.start == t.start)

/-- The position of an axis of `n` entries that a slice bound denotes: a negative bound counts
from the end, and what lies outside is clipped. -/
def clip (n : Nat) (bound : Int) : Nat :=
  (min (if bound < 0 then bound + n else bound) n).toNat

/-- The first position that the span selects on an axis of `n` entries. -/
def lower (s : Span) (n : Nat) : Nat := clip n s.start

/-- The number of positions that the span selects on an axis of `n` entries. -/
def extent (s : Span) (n : Nat) : Nat := clip n s.stop - clip n s.start

/-- The part of a list that the span selects. -/
def slice {α : Type} (s : Span) (xs : List α) : List α :=
  (xs.drop (s.lower xs.length)).take (s.extent xs.length)

@[simp] theorem length_shift (s : Span) (k : Int) : (s.shift k).length = s.length := by
  simp only [length, shift]
  omega

@[simp] theorem length_ofLength (a : Int) (n : Nat) : (ofLength a n).length = n := by
  simp only [length, ofLength]
  omega

@[simp] theorem length_positions (s : Span) : s.positions.length = s.length := by
  simp [positions]

/-- A position of the span lies between its bounds. -/
theorem mem_positions {s : Span} {i : Int} : i ∈ s.positions ↔ s.start ≤ i ∧ i < s.stop := by
  simp only [positions, List.mem_map, List.mem_range, length]
  constructor
  · rintro ⟨k, hk, rfl⟩
    omega
  · intro h
    exact ⟨(i - s.start).toNat, by omega, by omega⟩

/-- Spans are alike exactly when they list the same positions. -/
theorem alike_iff {s t : Span} : s.alike t = true ↔ s.positions = t.positions := by
  simp only [alike, Bool.and_eq_true, Bool.or_eq_true, beq_iff_eq]
  constructor
  · rintro ⟨hl, h0 | hs⟩
    · rw [h0] at hl
      simp [positions, h0, ← hl]
    · simp [positions, hl, hs]
  · intro h
    have hl : s.length = t.length := by
      have := congrArg List.length h
      simpa using this
    refine ⟨hl, ?_⟩
    by_cases h0 : s.length = 0
    · exact .inl h0
    · right
      have hh := congrArg List.head? h
      obtain ⟨n, hn⟩ := Nat.exists_eq_succ_of_ne_zero h0
      simp only [positions, ← hl, hn, List.range_succ_eq_map] at hh
      simpa using hh

@[simp] theorem alike_self (s : Span) : s.alike s = true := alike_iff.2 rfl

/-- A bound on the axis denotes itself. -/
theorem clip_of_le {n : Nat} {b : Int} (h0 : 0 ≤ b) (hn : b ≤ n) : clip n b = b.toNat := by
  simp only [clip]
  omega

/-- A span that ends on the axis begins its selection at its start. -/
theorem lower_of_le {s : Span} {n : Nat} (h0 : 0 ≤ s.start) (hs : s.start ≤ s.stop)
    (hn : s.stop ≤ n) : s.lower n = s.start.toNat :=
  clip_of_le h0 (by omega)

/-- A span whose bounds are not negative and that ends on the axis selects its own length. -/
theorem extent_of_le {s : Span} {n : Nat} (h0 : 0 ≤ s.start) (h1 : 0 ≤ s.stop)
    (hn : s.stop ≤ n) : s.extent n = s.length := by
  simp only [extent, clip, length]
  omega

end Span

end LeastSquares
