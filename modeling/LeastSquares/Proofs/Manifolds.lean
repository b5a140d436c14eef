import LeastSquares.Proofs.Reachability
import LeastSquares.Proofs.Stretching

/-!
# Conditions on manifolds

No law relates the operations of a manifold, so a statement about points of any manifold names what
it relies on. A manifold is accepting if every point moves along every vector that is as long as the
tangent space (`Manifold.Accepting`). It is uniform if motion along zero keeps the number of
coordinates, and if the numbers of coordinates of two points decide whether they have a displacement
and of which shape it is (`Manifold.Uniform`).

Vector spaces meet both conditions (`Kind.IsVector.accepting`, `Kind.IsVector.uniform`), and so do
the positive numbers (`Manifold.positive_accepting`, `Manifold.positive_uniform`), which also stay
in place along zero (`Manifold.positive_move_zero`). A variable of an accepting kind moves along
every vector that is as long as its tangent space (`Variable.exists_move`).
-/

namespace LeastSquares

variable {α : Type}

namespace Manifold

variable {n : Nat}

/-- Whether every point moves along every vector that is as long as the tangent space. -/
def Accepting (M : Manifold α n) : Prop :=
  ∀ x d : List α, d.length = n → ∃ motion, M.move x (.ofList d) = .ok motion

/-- Whether motion along zero keeps the number of coordinates, and whether the shapes of two points
decide if they have a displacement and of which shape it is. -/
structure Uniform [Zero α] (M : Manifold α n) : Prop where
  length_move : ∀ {x : List α} {motion : Motion α n},
    M.move x (.ofList (List.replicate n 0)) = .ok motion → motion.coordinates.length = x.length
  displacement : ∀ {x y x' y' : Tensor α} {d : Displacement α}, x'.shape = x.shape →
    y'.shape = y.shape → M.displacement x y = .ok d →
    ∃ d', M.displacement x' y' = .ok d' ∧ d'.tangent.shape = d.tangent.shape

section
variable [Zero α] [Add α] [Neg α] [Mul α] [Div α] (exp log : α → α)

/-- One factor is stretched to all coordinates of a positive number. -/
theorem positive_move (x d : List α) (hd : d.length = 1) :
    ∃ motion, (positive exp log).move x (.ofList d) = .ok motion ∧
      motion.coordinates.length = x.length := by
  have hjoins : Joins x.length d.length := .inr (.inr hd)
  obtain ⟨moved, hmoved, hlen, -⟩ := Tensor.combine_ofList_of_joins (fun a d => a * exp d) hjoins
  refine ⟨_, bind_eq_ok.2 ⟨_, hmoved, rfl⟩, ?_⟩
  rw [Tensor.data_ofList, hlen, joinedLength]
  split <;> omega

/-- The positive numbers are accepting. -/
theorem positive_accepting : (positive exp log).Accepting := by
  intro x d hd
  obtain ⟨motion, hmotion, -⟩ := positive_move exp log x d hd
  exact ⟨motion, hmotion⟩

/-- The positive numbers are uniform. -/
theorem positive_uniform : (positive exp log).Uniform where
  length_move {x _} h := by
    obtain ⟨_, hmotion, hlen⟩ := positive_move exp log x [0] rfl
    obtain rfl := Except.ok.inj (hmotion.symm.trans h)
    exact hlen
  displacement hx hy h := by
    obtain ⟨ratio, hratio, h⟩ := bind_eq_ok.1 h
    cases h
    obtain ⟨ratio', hratio', hshape⟩ := Tensor.combine_of_shapes hy hx hratio
    exact ⟨_, bind_eq_ok.2 ⟨ratio', hratio', rfl⟩, hshape⟩

end

/-- Along zero a positive number stays in place. -/
theorem positive_move_zero {K : Type} [Field K] {exp : K → K} (log : K → K) (hexp : exp 0 = 1)
    (x : List K) : ∃ motion, (positive exp log).move x (.ofList [0]) = .ok motion ∧
      motion.coordinates = x := by
  have hjoins : Joins x.length [(0 : K)].length := .inr (.inr rfl)
  obtain ⟨moved, hmoved, hlen, hentries⟩ :=
    Tensor.combine_ofList_of_joins (fun a d => a * exp d) hjoins
  have hlen : moved.length = x.length := by
    rw [hlen, joinedLength]
    split <;> simp_all
  have hstays : moved = x := by
    refine List.ext_getElem hlen fun i hi hix => ?_
    have hentry := hentries i hi 0 0 0
    have hzero : [(0 : K)].getD (stretchedPlace [(0 : K)].length i) 0 = 0 := rfl
    rw [stretchedPlace_of_lt hix, hzero, hexp, mul_one, List.getD_eq_getElem _ _ hi,
      List.getD_eq_getElem _ _ hix] at hentry
    exact hentry
  exact ⟨_, bind_eq_ok.2 ⟨_, hmoved, rfl⟩, hstays⟩

end Manifold

section
variable [Elementary α]

namespace Kind

/-- Whether every point of the kind moves along every vector that is as long as the tangent space.
Points of a vector space do. -/
def Accepting (α : Type) [Elementary α] : Kind → Prop
  | vector _ _ => True
  | manifold name n => (Manifolds.named name n : Manifold α n).Accepting

/-- Whether the shapes of what is computed from points of the kind depend on shapes alone. In a
vector space they do. -/
def Uniform (α : Type) [Zero α] [Elementary α] : Kind → Prop
  | vector _ _ => True
  | manifold name n => (Manifolds.named name n : Manifold α n).Uniform

variable {kind : Kind}

theorem IsVector.accepting (h : kind.IsVector) : kind.Accepting α := by
  cases kind with
  | vector name n => trivial
  | manifold name n => exact h.elim

theorem IsVector.uniform [Zero α] (h : kind.IsVector) : kind.Uniform α := by
  cases kind with
  | vector name n => trivial
  | manifold name n => exact h.elim

end Kind

/-- A variable of an accepting kind is moved along every tangent vector that is as long as its
tangent space. -/
theorem Variable.exists_move [Add α] {x : Variable α} (hx : x.kind.Accepting α) {d : List α}
    (hd : d.length = x.kind.dimension) : ∃ y, x.move (.ofList d) = .ok y := by
  obtain ⟨kind, coordinates, hadmits⟩ := x
  cases kind with
  | vector name n =>
    have hlen : coordinates.length = d.length := Eq.trans hadmits hd.symm
    have hsum : (List.zipWith (· + ·) coordinates d).length = n := by
      rw [List.length_zipWith, ← hlen, Nat.min_self]
      exact hadmits
    have hmoved : moved ⟨.vector name n, coordinates, hadmits⟩ (.ofList d) =
        .ok (List.zipWith (· + ·) coordinates d) :=
      bind_eq_ok.2 ⟨_, Tensor.combine_ofList _ hlen, rfl⟩
    exact ⟨_, bind_eq_ok.2 ⟨_, hmoved, dif_pos hsum⟩⟩
  | manifold name n =>
    obtain ⟨motion, hmotion⟩ := hx coordinates d hd
    have hmoved : moved ⟨.manifold name n, coordinates, hadmits⟩ (.ofList d) =
        .ok motion.coordinates := bind_eq_ok.2 ⟨motion, hmotion, rfl⟩
    exact ⟨_, bind_eq_ok.2 ⟨_, hmoved, dif_pos trivial⟩⟩

namespace Assignment

/-- An assignment whose variables are all of accepting kinds. -/
def Accepting (s : Assignment α) : Prop := ∀ e ∈ s.entries, e.2.kind.Accepting α

/-- An assignment whose variables are all of uniform kinds. -/
def Uniform [Zero α] (s : Assignment α) : Prop := ∀ e ∈ s.entries, e.2.kind.Uniform α

theorem IsVector.accepting {s : Assignment α} (h : s.IsVector) : s.Accepting :=
  fun e he => (h e he).accepting

theorem IsVector.uniform [Zero α] {s : Assignment α} (h : s.IsVector) : s.Uniform :=
  fun e he => (h e he).uniform

end Assignment

end

end LeastSquares
