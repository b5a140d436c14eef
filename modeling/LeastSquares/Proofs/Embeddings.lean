import LeastSquares.Proofs.JointAxes
import LeastSquares.Proofs.Occurrences
import LeastSquares.Proofs.Reals
import Mathlib.LinearAlgebra.Matrix.DotProduct

/-!
# Parts of joint vectors and their embeddings

A joint tangent vector is taken apart by motion, which hands every variable its own part
(`Assignment.part`), and joint vectors are put together of sensitivities of single variables
(`Assignment.embed`). Both go by the spans of the variables, so they undo each other. The embedded
parts of a joint vector add up to it in any order of the keys (`Assignment.dense_sum_embed`), since
the sum has the inner products of the vector, and the parts of vectors that stand one behind the
other in the order of the keys are these vectors (`Assignment.part_flatMap`). Embedding is adjoint
to taking the part (`Assignment.embed_adjoint`).
-/

open scoped Matrix

namespace LeastSquares

variable {K : Type}

/-! ## Sums of block vectors on an axis -/

namespace BlockVector

variable {v : BlockVector K} {vs : List (BlockVector K)} {n : Nat}

theorem On.foldl_add (hv : v.On n) (h : ∀ w ∈ vs, w.On n) : (vs.foldl (· + ·) v).On n := by
  induction vs generalizing v with
  | nil => exact hv
  | cons w vs ih =>
    exact ih (hv.add (h w (List.mem_cons_self ..))) fun u hu => h u (List.mem_cons_of_mem _ hu)

variable [CommSemiring K]

/-- The inner products of a sum are the sums of the inner products. -/
theorem On.inner_foldl_add (hv : v.On n) (h : ∀ w ∈ vs, w.On n) (x : Fin n → K) :
    (vs.foldl (· + ·) v).inner x = v.inner x + (vs.map fun w => w.inner x).sum := by
  induction vs generalizing v with
  | nil => simp
  | cons w vs ih =>
    have hw := h w (List.mem_cons_self ..)
    rw [List.foldl_cons, ih (hv.add hw) fun u hu => h u (List.mem_cons_of_mem _ hu),
      hv.wellFormed.inner_add, List.map_cons, List.sum_cons, add_assoc]

/-- A vector on an axis is materialized there as the vector that has its inner products. -/
theorem On.dense_eq (h : v.On n) {f : Fin n → K} (hf : ∀ x : Fin n → K, v.inner x = f ⬝ᵥ x) :
    v.dense n = .ok (List.ofFn f) := by
  have hentry : (fun i : Fin n => v.entry i) = f := dotProduct_eq _ _ hf
  rw [← hentry]
  exact h.regular.dense_eq h.dimension_le

end BlockVector

/-! ## Parts that stand one behind the other -/

namespace Assignment

variable {s : Assignment K} {c : Int → List K}

/-- Vectors for consecutive variables have as many entries together as the variables have
coordinates. -/
theorem length_flatMap_keys {entries : List (Int × Variable K)}
    (h : ∀ e ∈ entries, (c e.1).length = e.2.kind.dimension) :
    ((entries.map (·.1)).flatMap c).length = extent entries := by
  induction entries with
  | nil => rfl
  | cons e entries ih =>
    rw [List.map_cons, List.flatMap_cons, List.length_append, h e (List.mem_cons_self ..),
      ih fun e he => h e (List.mem_cons_of_mem _ he)]
    rfl

/-- Vectors that stand one behind the other in the order of the keys make a joint vector, and they
are its parts. -/
theorem part_flatMap [Zero K] [Add K] (hs : s.keys.Nodup)
    (hc : ∀ key x, s.find key = .ok x → (c key).length = x.kind.dimension) :
    (s.keys.flatMap c).length = s.dimension ∧
      ∀ key ∈ s.keys, s.part (s.keys.flatMap c) key = c key := by
  have hentries : ∀ e ∈ s.entries, (c e.1).length = e.2.kind.dimension :=
    fun e he => hc e.1 e.2 (find_of_mem hs he)
  have hlen : (s.keys.flatMap c).length = s.dimension := length_flatMap_keys hentries
  refine ⟨hlen, fun key hkey => ?_⟩
  obtain ⟨x, hx⟩ := mem_keys.1 hkey
  obtain ⟨before, after, hsplit, hbefore⟩ := exists_split hx
  have hfirst : ((before.map (·.1)).flatMap c).length = extent before :=
    length_flatMap_keys fun e he => hentries e (hsplit ▸ List.mem_append_left _ he)
  rw [part_eq_take hsplit hbefore hlen, keys, hsplit, List.map_append, List.flatMap_append,
    ← hfirst, List.drop_left, List.map_cons, List.flatMap_cons, ← hc key x hx, List.take_left]

/-! ## Embedded parts -/

section
variable [CommSemiring K]

/-- The embedded parts of a joint vector add up to it, in any order. -/
theorem dense_sum_embed (hs : s.keys.Nodup) {d : List K} (hd : d.length = s.dimension)
    (hc : ∀ key ∈ s.keys, c key = s.part d key) {order : List Int} (horder : order.Perm s.keys) :
    ∃ parts, order.mapM (fun key => s.embed key (c key)) = .ok parts ∧
      (parts.foldl (· + ·) 0).dense s.dimension = .ok d := by
  have hlen : ∀ key x, s.find key = .ok x → (c key).length = x.kind.dimension := by
    intro key x hx
    rw [hc key (mem_keys.2 ⟨x, hx⟩)]
    exact length_part hx hd
  have hfind : ∀ key ∈ order, ∃ x, s.find key = .ok x :=
    fun key hkey => mem_keys.1 (horder.mem_iff.1 hkey)
  have hembed : ∀ key ∈ order, s.embed key (c key) = .ok ⟨c key, [s.spanAt key]⟩ := by
    intro key hkey
    obtain ⟨x, hx⟩ := hfind key hkey
    exact embed_eq_ok hx (hlen key x hx)
  have hon : ∀ v ∈ order.map fun key => (⟨c key, [s.spanAt key]⟩ : BlockVector K),
      v.On s.dimension := by
    intro v hv
    obtain ⟨key, hkey, rfl⟩ := List.mem_map.1 hv
    exact on_of_embed (hembed key hkey)
  have hinner : ∀ x : Fin s.dimension → K,
      ((order.map fun key => (⟨c key, [s.spanAt key]⟩ : BlockVector K)).foldl (· + ·) 0).inner x =
        Dense.dot d (List.ofFn x) := by
    intro x
    have hzero : (0 : BlockVector K).inner x = 0 := by simp [BlockVector.inner]
    rw [BlockVector.On.inner_foldl_add (.zero _) hon, hzero, zero_add, List.map_map,
      ← sum_dot_part hs hd List.length_ofFn, ← (horder.map _).sum_eq]
    refine congrArg List.sum (List.map_congr_left fun key hkey => ?_)
    obtain ⟨y, hy⟩ := hfind key hkey
    rw [Function.comp_apply, embed_inner hy (hlen key y hy), hc key (horder.mem_iff.1 hkey)]
  refine ⟨_, mapM_eq_ok hembed, ?_⟩
  obtain ⟨f, rfl⟩ : ∃ f : Fin s.dimension → K, d = List.ofFn f :=
    ⟨_, (Dense.ofFn_toVector_of_length hd).symm⟩
  exact (BlockVector.On.foldl_add (.zero _) hon).dense_eq fun x =>
    (hinner x).trans (Dense.dot_ofFn f x)

/-- Embedding and taking parts undo each other and are adjoint. Embedded sensitivities of all
variables add up, in any order, to the vector that they make one behind the other in the order of
the keys, of which the span of a variable selects its own. Motion along a joint vector hands every
variable its part, and no more is asked for the motion; an embedded sensitivity has with the vector
the inner product that the sensitivity has with the part, and the embedded parts add up to the
vector. -/
theorem embed_adjoint [Elementary K] (hs : s.Reachable)
    (hc : ∀ key x, s.find key = .ok x → (c key).length = x.kind.dimension) {order : List Int}
    (horder : order.Perm s.keys) :
    (∃ parts, order.mapM (fun key => s.embed key (c key)) = .ok parts ∧
      (parts.foldl (· + ·) 0).dense s.dimension = .ok (s.keys.flatMap c)) ∧
    (∀ key ∈ s.keys, ∃ span, s.span key = .ok span ∧ span.slice (s.keys.flatMap c) = c key ∧
      ∀ d, s.part d key = span.slice d) ∧
    ∀ d : List K, d.length = s.dimension →
      (∀ t, s.move (.ofList d) = .ok t ↔ List.Forall₂ (s.Moves d) s.entries t.entries) ∧
      (s.Accepting → ∃ t, s.move (.ofList d) = .ok t) ∧
      (∀ key ∈ s.keys, ∃ v xs, s.embed key (c key) = .ok v ∧ v.dense s.dimension = .ok xs ∧
        xs.length = s.dimension ∧ Dense.dot xs d = Dense.dot (c key) (s.part d key)) ∧
      ∃ parts, order.mapM (fun key => s.embed key (s.part d key)) = .ok parts ∧
        (parts.foldl (· + ·) 0).dense s.dimension = .ok d := by
  have hnodup := hs.nodup_keys
  obtain ⟨hlen, hparts⟩ := part_flatMap hnodup hc
  refine ⟨dense_sum_embed hnodup hlen (fun key hkey => (hparts key hkey).symm) horder,
    fun key hkey => ?_, fun d hd => ⟨fun t => move_ofList_eq_ok hnodup hd,
      fun haccepting => exists_move haccepting hd, fun key hkey => ?_,
      dense_sum_embed hnodup hd (fun key _ => rfl) horder⟩⟩
  · obtain ⟨x, hx⟩ := mem_keys.1 hkey
    obtain ⟨span, hspan, -⟩ := find_translate hx
    have hpart : ∀ d, s.part d key = span.slice d := fun d => by rw [part, hspan]
    exact ⟨span, hspan, (hpart _).symm.trans (hparts key hkey), hpart⟩
  · obtain ⟨x, hx⟩ := mem_keys.1 hkey
    have hembed := embed_eq_ok hx (hc key x hx)
    refine ⟨_, _, hembed, (on_of_embed hembed).dense_eq fun _ => rfl, List.length_ofFn, ?_⟩
    obtain ⟨f, rfl⟩ : ∃ f : Fin s.dimension → K, d = List.ofFn f :=
      ⟨_, (Dense.ofFn_toVector_of_length hd).symm⟩
    rw [Dense.dot_ofFn, ← embed_inner hx (hc key x hx) f]
    rfl

end

/-- A point of the plane, a point without coordinates and a positive number, with sensitivities that
are embedded in another order than they are stored in. -/
theorem embed_adjoint_permuted :
    let s : Assignment ℝ := ⟨[(4, ⟨.plane, [1, 2], rfl⟩), (9, ⟨.vector "Vector0" 0, [], rfl⟩),
      (0, ⟨.positive, [3], trivial⟩)]⟩
    let c : Int → List ℝ := fun key => if key = 4 then [5, 6] else if key = 0 then [7] else []
    s.Reachable ∧ (∀ key x, s.find key = .ok x → (c key).length = x.kind.dimension) ∧
      [0, 4, 9].Perm s.keys ∧ s.dimension = 3 ∧ s.span 0 = .ok ⟨2, 3⟩ ∧
      (∃ parts, [0, 4, 9].mapM (fun key => s.embed key (c key)) = .ok parts ∧
        (parts.foldl (· + ·) 0).dense 3 = .ok [5, 6, 7]) ∧
      s.Accepting ∧ (∃ t, s.move (.ofList [8, 1, 2]) = .ok t) ∧
      ∃ parts, [0, 4, 9].mapM (fun key => s.embed key (s.part [8, 1, 2] key)) = .ok parts ∧
        (parts.foldl (· + ·) 0).dense 3 = .ok [8, 1, 2] := by
  intro s c
  have hs : s.Reachable := .of_nodup (by decide)
  have hc : ∀ key x, s.find key = .ok x → (c key).length = x.kind.dimension := by
    intro key x hx
    rcases List.mem_cons.1 (mem_of_find hx) with hx | hx
    · cases hx
      rfl
    · rcases List.mem_cons.1 hx with hx | hx
      · cases hx
        rfl
      · cases List.mem_singleton.1 hx
        rfl
  have horder : [0, 4, 9].Perm s.keys := by decide
  have haccepting : s.Accepting := by
    simp only [s, Accepting, List.forall_mem_cons]
    exact ⟨trivial, trivial, Kind.positive_accepting, by simp⟩
  obtain ⟨hsum, -, hvector⟩ := embed_adjoint hs hc horder
  obtain ⟨-, hmove, -, hparts⟩ := hvector [8, 1, 2] rfl
  exact ⟨hs, hc, horder, rfl, rfl, hsum, haccepting, hmove haccepting, hparts⟩

end Assignment

end LeastSquares
