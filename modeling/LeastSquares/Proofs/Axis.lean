import LeastSquares.Dense
import Mathlib.Algebra.BigOperators.Fin
import Mathlib.Algebra.BigOperators.Intervals
import Mathlib.Data.List.GetD
import Mathlib.Data.Matrix.Mul

/-!
# Spans on an axis

Vectors of a fixed length are functions on `Fin n`, and the lists that the library computes with are
their listings `List.ofFn f`. The operations on lists become the operations on functions: sums,
multiples and inner products entry by entry (`Dense.add_ofFn`, `Dense.dot_ofFn`), and padding with
zeros (`Dense.pad_ofFn`).

A list of values placed by a span says something about every position: the value there, or a default
outside of the span (`Span.pick`). Where a span lies on an axis (`Span.On`), accumulation adds what
is picked (`Span.accumulate_ofFn`), and slicing is adjoint to it: picked values times a vector sum
up to the values times the selected part of the vector (`Span.sum_pick_mul`).
-/

open scoped Matrix

namespace LeastSquares

variable {β K : Type}

/-- A checked step that leads to a result has a result of its own, from which it goes on. -/
theorem bind_eq_ok {γ : Type} {x : Except Error β} {f : β → Except Error γ} {c : γ} :
    x >>= f = .ok c ↔ ∃ b, x = .ok b ∧ f b = .ok c := by
  cases x with
  | error e => exact ⟨nofun, fun ⟨_, h, _⟩ => nomatch h⟩
  | ok b => exact ⟨fun h => ⟨b, rfl, h⟩, fun ⟨_, h, hf⟩ => Except.ok.inj h ▸ hf⟩

/-- Checked steps that all succeed give the list of their results. -/
theorem mapM_eq_ok {γ : Type} {f : β → Except Error γ} {g : β → γ} {xs : List β}
    (h : ∀ x ∈ xs, f x = .ok (g x)) : xs.mapM f = .ok (xs.map g) := by
  induction xs with
  | nil => rfl
  | cons x xs ih =>
    rw [List.mapM_cons, h x (List.mem_cons_self ..),
      ih fun y hy => h y (List.mem_cons_of_mem _ hy)]
    rfl

/-- A list of results has one for each checked step. -/
theorem forall₂_of_mapM {γ : Type} {f : β → Except Error γ} {xs : List β} {ys : List γ}
    (h : xs.mapM f = .ok ys) : List.Forall₂ (fun x y => f x = .ok y) xs ys := by
  induction xs generalizing ys with
  | nil =>
    cases h
    exact .nil
  | cons x xs ih =>
    rw [List.mapM_cons] at h
    obtain ⟨y, hy, h⟩ := bind_eq_ok.1 h
    obtain ⟨ys, hys, h⟩ := bind_eq_ok.1 h
    cases h
    exact .cons hy (ih hys)

/-- What a relation makes of the elements of one list holds of the elements of the other. -/
theorem forall_mem_of_forall₂ {γ : Type} {R : β → γ → Prop} {p : γ → Prop} {xs : List β}
    {ys : List γ} (h : List.Forall₂ R xs ys) (hp : ∀ x ∈ xs, ∀ y, R x y → p y) :
    ∀ y ∈ ys, p y := by
  induction h with
  | nil => exact fun _ hy => absurd hy List.not_mem_nil
  | @cons x y xs ys hxy _ ih =>
    intro z hz
    rcases List.mem_cons.1 hz with rfl | hz
    · exact hp x (List.mem_cons_self ..) z hxy
    · exact ih (fun x hx => hp x (List.mem_cons_of_mem _ hx)) z hz

/-- What exists for the elements of two related lists, one by one, makes up a list. -/
theorem exists_forall₂ {γ δ : Type} {R : β → γ → Prop} {P : β → δ → Prop} {Q : γ → δ → Prop}
    {xs : List β} {ys : List γ} (h : List.Forall₂ R xs ys)
    (hp : ∀ x ∈ xs, ∀ y, R x y → ∃ z, P x z ∧ Q y z) :
    ∃ zs, List.Forall₂ P xs zs ∧ List.Forall₂ Q ys zs := by
  induction h with
  | nil => exact ⟨[], .nil, .nil⟩
  | @cons x y xs ys hxy _ ih =>
    obtain ⟨z, hxz, hyz⟩ := hp x (List.mem_cons_self ..) y hxy
    obtain ⟨zs, hxs, hys⟩ := ih fun x hx => hp x (List.mem_cons_of_mem _ hx)
    exact ⟨z :: zs, .cons hxz hxs, .cons hyz hys⟩

/-- Checked steps that are not refused, and establish a property of their results, give a list of
such results. -/
theorem exists_mapM {γ : Type} {P : γ → Prop} {f : β → Except Error γ} {xs : List β}
    (h : ∀ x ∈ xs, ∃ y, f x = .ok y ∧ P y) :
    ∃ ys, xs.mapM f = .ok ys ∧ ys.length = xs.length ∧ ∀ y ∈ ys, P y := by
  induction xs with
  | nil => exact ⟨[], rfl, rfl, by simp⟩
  | cons x xs ih =>
    obtain ⟨y, hy, hPy⟩ := h x (List.mem_cons_self ..)
    obtain ⟨ys, hys, hlen, hPys⟩ := ih fun x hx => h x (List.mem_cons_of_mem _ hx)
    refine ⟨y :: ys, ?_, congrArg Nat.succ hlen, List.forall_mem_cons.2 ⟨hPy, hPys⟩⟩
    rw [List.mapM_cons, hy, hys]
    rfl

/-- A checked fold whose steps keep an invariant and are not refused under it is not refused. -/
theorem exists_foldlM {γ : Type} {P : β → Prop} {step : β → γ → Except Error β} {cs : List γ}
    (h : ∀ c ∈ cs, ∀ b, P b → ∃ b', step b c = .ok b' ∧ P b') {b : β} (hb : P b) :
    ∃ b', cs.foldlM step b = .ok b' ∧ P b' := by
  induction cs generalizing b with
  | nil => exact ⟨b, rfl, hb⟩
  | cons c cs ih =>
    obtain ⟨b', hstep, hb'⟩ := h c (List.mem_cons_self ..) b hb
    obtain ⟨b'', hfold, hb''⟩ := ih (fun c hc => h c (List.mem_cons_of_mem _ hc)) hb'
    exact ⟨b'', bind_eq_ok.2 ⟨b', hstep, hfold⟩, hb''⟩

/-- What the steps of a checked fold keep holds of its result. -/
theorem of_foldlM {γ : Type} {P : β → Prop} {step : β → γ → Except Error β} {cs : List γ}
    (h : ∀ c ∈ cs, ∀ b b', P b → step b c = .ok b' → P b') {b b' : β} (hb : P b)
    (hfold : cs.foldlM step b = .ok b') : P b' := by
  induction cs generalizing b with
  | nil =>
    cases hfold
    exact hb
  | cons c cs ih =>
    obtain ⟨b₁, hstep, hfold⟩ := bind_eq_ok.1 hfold
    exact ih (fun c hc => h c (List.mem_cons_of_mem _ hc))
      (h c (List.mem_cons_self ..) b b₁ hb hstep) hfold

/-- Checked folds of steps that agree on the list are the same. -/
theorem foldlM_congr {γ : Type} {step step' : β → γ → Except Error β} {cs : List γ}
    (h : ∀ c ∈ cs, ∀ b, step b c = step' b c) (b : β) : cs.foldlM step b = cs.foldlM step' b := by
  induction cs generalizing b with
  | nil => rfl
  | cons c cs ih =>
    rw [List.foldlM_cons, List.foldlM_cons, h c (List.mem_cons_self ..)]
    exact congrArg (step' b c >>= ·) (funext (ih fun d hd => h d (List.mem_cons_of_mem _ hd)))

/-- A checked fold over checked results that are given is the fold over what they are. -/
theorem foldlM_bind_of_forall₂ {γ δ : Type} {f : β → Except Error γ}
    {push : δ → γ → Except Error δ} {xs : List β} {ys : List γ}
    (h : List.Forall₂ (fun x y => f x = .ok y) xs ys) (a : δ) :
    xs.foldlM (fun acc x => f x >>= push acc) a = ys.foldlM push a := by
  induction h generalizing a with
  | nil => rfl
  | cons hy _ ih =>
    rw [List.foldlM_cons, List.foldlM_cons, hy]
    exact congrArg (push a _ >>= ·) (funext ih)

/-- A checked fold over checked results succeeds where all results are given and their fold
succeeds. -/
theorem foldlM_bind_eq_ok {γ δ : Type} {f : β → Except Error γ} {push : δ → γ → Except Error δ}
    {xs : List β} {a b : δ} :
    xs.foldlM (fun acc x => f x >>= push acc) a = .ok b ↔
      ∃ ys, List.Forall₂ (fun x y => f x = .ok y) xs ys ∧ ys.foldlM push a = .ok b := by
  constructor
  · intro h
    induction xs generalizing a with
    | nil => exact ⟨[], .nil, h⟩
    | cons x xs ih =>
      obtain ⟨acc, hx, hrest⟩ := bind_eq_ok.1 h
      obtain ⟨y, hy, hpush⟩ := bind_eq_ok.1 hx
      obtain ⟨ys, hys, hfold⟩ := ih hrest
      exact ⟨y :: ys, .cons hy hys, bind_eq_ok.2 ⟨acc, hpush, hfold⟩⟩
  · rintro ⟨ys, hys, hfold⟩
    rwa [foldlM_bind_of_forall₂ hys]

/-- Rows of one length, one after the other. -/
theorem length_flatten_rows {rows : List (List β)} {n : Nat} (h : ∀ row ∈ rows, row.length = n) :
    rows.flatten.length = rows.length * n := by
  rw [List.length_flatten, List.map_congr_left h, List.map_const', List.sum_replicate, smul_eq_mul]

/-! ## Listed vectors -/

/-- A list as a vector of a given length, followed by zeros or cut. -/
def Dense.toVector [Zero K] (n : Nat) (xs : List K) : Fin n → K := fun i => xs.getD i 0

/-- A list is the listing of its entries. -/
theorem Dense.ofFn_toVector [Zero K] (xs : List K) :
    List.ofFn (Dense.toVector xs.length xs) = xs := by
  refine List.ext_getElem (by simp) fun i h₁ h₂ => ?_
  simp [Dense.toVector, h₂]

/-- A list of known length is the listing of its entries. -/
theorem Dense.ofFn_toVector_of_length [Zero K] {xs : List K} {n : Nat} (h : xs.length = n) :
    List.ofFn (Dense.toVector n xs) = xs := by
  subst h
  exact Dense.ofFn_toVector xs

/-- The front part of a list. -/
theorem Dense.take_eq_ofFn [Zero K] {xs : List K} {n : Nat} (h : n ≤ xs.length) :
    xs.take n = List.ofFn (Dense.toVector n xs) := by
  refine List.ext_getElem (by simp [h]) fun i h₁ h₂ => ?_
  have hi : i < xs.length := by
    simp only [List.length_take] at h₁
    omega
  simp [Dense.toVector, hi]

@[simp] theorem Dense.toVector_ofFn [Zero K] {n : Nat} (f : Fin n → K) :
    Dense.toVector n (List.ofFn f) = f := by
  funext i
  simp [Dense.toVector]

/-- A listing read as a shorter or longer vector. -/
theorem Dense.toVector_ofFn_nat [Zero K] {m n : Nat} (g : Nat → K) (hg : ∀ i, m ≤ i → g i = 0) :
    Dense.toVector n (List.ofFn fun i : Fin m => g i) = fun i : Fin n => g i := by
  funext i
  by_cases hi : (i : Nat) < m
  · simp [Dense.toVector, hi]
  · simp [Dense.toVector, hi, hg i (by omega)]

/-- A constant list is the listing of a constant. -/
theorem replicate_eq_ofFn (n : Nat) (x : β) :
    List.replicate n x = List.ofFn fun _ : Fin n => x := by
  simp

/-- Listings are combined entry by entry. -/
theorem zipWith_ofFn {γ δ : Type} {n : Nat} (op : β → γ → δ) (f : Fin n → β) (g : Fin n → γ) :
    List.zipWith op (List.ofFn f) (List.ofFn g) = List.ofFn fun i => op (f i) (g i) :=
  List.ext_getElem (by simp) fun i h₁ h₂ => by simp

namespace Dense

theorem add_ofFn [Add K] {n : Nat} (f g : Fin n → K) :
    add (List.ofFn f) (List.ofFn g) = List.ofFn (f + g) := zipWith_ofFn _ f g

theorem sub_ofFn [Sub K] {n : Nat} (f g : Fin n → K) :
    sub (List.ofFn f) (List.ofFn g) = List.ofFn (f - g) := zipWith_ofFn _ f g

theorem smul_ofFn [Mul K] {n : Nat} (c : K) (f : Fin n → K) :
    smul c (List.ofFn f) = List.ofFn (c • f) := by
  simp only [smul, List.map_ofFn]
  rfl

/-- The entries of a sum of lists of one length. -/
theorem getD_add [AddMonoid K] {xs ys : List K} (h : xs.length = ys.length) (i : Nat) :
    (add xs ys).getD i 0 = xs.getD i 0 + ys.getD i 0 := by
  by_cases hi : i < xs.length
  · have hi' : i < ys.length := by omega
    simp [add, hi, hi']
  · have hi' : ¬i < ys.length := by omega
    simp [add, hi, hi']

/-- Adding what a vector is short of another one makes the other one. -/
theorem add_sub_cancel [AddCommGroup K] {xs ys : List K} (h : xs.length = ys.length) :
    add xs (sub ys xs) = ys := by
  refine List.ext_getElem (by simp [add, sub, h]) fun i h₁ h₂ => ?_
  simp [add, sub]

section
variable [CommSemiring K]

/-- The inner product as a sum over the positions of the second list. -/
theorem dot_eq_sum (xs ys : List K) :
    dot xs ys = ∑ k ∈ Finset.range ys.length, xs.getD k 0 * ys.getD k 0 := by
  induction ys generalizing xs with
  | nil => simp [dot]
  | cons y ys ih =>
    rw [List.length_cons, Finset.sum_range_succ']
    cases xs with
    | nil => simp [dot]
    | cons x xs =>
      have h : dot (x :: xs) (y :: ys) = x * y + dot xs ys := by simp [dot]
      rw [h, ih xs, add_comm]
      simp

theorem dot_comm (xs ys : List K) : dot xs ys = dot ys xs := by
  simp only [dot, List.zipWith_comm_of_comm (f := (· * · : K → K → K)) mul_comm]

/-- The inner product is additive in lists of one length. -/
theorem dot_add {xs ys : List K} (h : xs.length = ys.length) (zs : List K) :
    dot (add xs ys) zs = dot xs zs + dot ys zs := by
  simp only [dot_eq_sum, getD_add h, add_mul, Finset.sum_add_distrib]

/-- The inner product of lists that are put together of parts. -/
theorem dot_append {xs xs' : List K} (h : xs.length = xs'.length) (ys ys' : List K) :
    dot (xs ++ ys) (xs' ++ ys') = dot xs xs' + dot ys ys' := by
  rw [dot, List.zipWith_append h, List.sum_append]
  rfl

/-- Lists put together of parts of the same lengths have the inner products of the parts. -/
theorem dot_flatten {ι : Type} {f g : ι → List K} (h : ∀ i, (f i).length = (g i).length)
    (is : List ι) : dot (is.map f).flatten (is.map g).flatten =
      (is.map fun i => dot (f i) (g i)).sum := by
  induction is with
  | nil => rfl
  | cons i is ih =>
    rw [List.map_cons, List.map_cons, List.flatten_cons, List.flatten_cons, dot_append (h i), ih,
      List.map_cons, List.sum_cons]

/-- Squared lengths of parts add up. -/
theorem normSq_flatMap {ι : Type} (f : ι → List K) (is : List ι) :
    normSq (is.flatMap f) = (is.map fun i => normSq (f i)).sum :=
  dot_flatten (fun _ => rfl) is

theorem dot_ofFn {n : Nat} (f g : Fin n → K) : dot (List.ofFn f) (List.ofFn g) = f ⬝ᵥ g := by
  rw [dot, zipWith_ofFn, List.sum_ofFn]
  rfl

theorem normSq_ofFn {n : Nat} (f : Fin n → K) : normSq (List.ofFn f) = f ⬝ᵥ f := dot_ofFn f f

end

/-- Padding extends the listing of a sequence that is zero from its end on. -/
theorem pad_ofFn [Zero K] {m n : Nat} (g : Nat → K) (hmn : m ≤ n) (hg : ∀ i, m ≤ i → g i = 0) :
    pad n (List.ofFn fun i : Fin m => g i) = .ok (List.ofFn fun i : Fin n => g i) := by
  rw [pad, if_neg (by simpa using hmn)]
  congr 1
  refine List.ext_getElem (by simpa using by omega) fun i h₁ h₂ => ?_
  simp only [List.getElem_append, List.length_ofFn, List.getElem_ofFn, List.getElem_replicate]
  split
  · rfl
  · exact (hg i (by omega)).symm

/-- As many entries as there are places at least are padded. -/
theorem exists_pad [Zero K] {n : Nat} {xs : List K} (h : xs.length ≤ n) :
    ∃ ys, pad n xs = .ok ys ∧ ys.length = n := by
  refine ⟨_, if_neg (by omega), ?_⟩
  rw [List.length_append, List.length_replicate]
  omega

end Dense

/-- A sum over an axis does not see zeros behind the last position that counts. -/
theorem sum_fin_eq_sum_fin [AddCommMonoid K] {k m n : Nat} {g : Nat → K}
    (hg : ∀ j, k ≤ j → g j = 0) (hm : k ≤ m) (hn : k ≤ n) :
    ∑ j : Fin m, g j = ∑ j : Fin n, g j := by
  have hrange : ∀ n, k ≤ n → ∑ j : Fin n, g j = ∑ j ∈ Finset.range k, g j := by
    intro n hn
    rw [Fin.sum_univ_eq_sum_range]
    refine (Finset.sum_subset (Finset.range_mono hn) fun j _ hj => hg j ?_).symm
    simpa using hj
  rw [hrange m hm, hrange n hn]

/-- Products with a matrix and with its transpose are adjoint. -/
theorem mulVec_dotProduct [CommSemiring K] {m n : Nat} (M : Matrix (Fin m) (Fin n) K)
    (x : Fin n → K) (y : Fin m → K) : M *ᵥ x ⬝ᵥ y = x ⬝ᵥ Mᵀ *ᵥ y := by
  rw [Matrix.mulVec_transpose, dotProduct_comm x, ← Matrix.dotProduct_mulVec, dotProduct_comm]

/-- Products with the transpose of a matrix and with the matrix are adjoint. -/
theorem transpose_mulVec_dotProduct [CommSemiring K] {m n : Nat} (M : Matrix (Fin m) (Fin n) K)
    (y : Fin m → K) (x : Fin n → K) : Mᵀ *ᵥ y ⬝ᵥ x = y ⬝ᵥ M *ᵥ x :=
  mulVec_dotProduct Mᵀ y x

/-! ## Values placed by a span -/

namespace Span

/-- What values placed by a span say about a position: the value there, or a default outside. -/
def pick (s : Span) (default : β) (values : List β) (i : Int) : β :=
  if s.start ≤ i ∧ i < s.stop then values.getD (i - s.start).toNat default else default

theorem pick_of_mem {s : Span} {i : Int} (h : s.start ≤ i ∧ i < s.stop) (d : β)
    (values : List β) : s.pick d values i = values.getD (i - s.start).toNat d := if_pos h

theorem pick_of_notMem {s : Span} {i : Int} (h : ¬(s.start ≤ i ∧ i < s.stop)) (d : β)
    (values : List β) : s.pick d values i = d := if_neg h

@[simp] theorem pick_nil (s : Span) (d : β) (i : Int) : s.pick d [] i = d := by
  simp [pick]

/-- A function of the values is picked from the values it has. -/
theorem pick_map {γ : Type} (s : Span) (f : β → γ) (d : β) (values : List β) (i : Int) :
    s.pick (f d) (values.map f) i = f (s.pick d values i) := by
  unfold pick
  split
  · simp
  · rfl

/-- Inside of a span that both lists fill, what an operation makes of two values is picked from what
it makes of the lists. -/
theorem pick_zipWith {γ δ : Type} {s : Span} (op : β → γ → δ) (d : δ) (b : β) (c : γ) {xs : List β}
    {ys : List γ} (hx : xs.length = s.length) (hy : ys.length = s.length) {i : Int}
    (hi : s.start ≤ i ∧ i < s.stop) :
    s.pick d (List.zipWith op xs ys) i = op (s.pick b xs i) (s.pick c ys i) := by
  have hk : (i - s.start).toNat < s.length := by
    simp only [length]
    omega
  rw [pick_of_mem hi, pick_of_mem hi, pick_of_mem hi,
    List.getD_eq_getElem _ _ (by simpa [hx, hy] using hk), List.getD_eq_getElem _ _ (by omega),
    List.getD_eq_getElem _ _ (by omega), List.getElem_zipWith]

@[simp] theorem shift_zero (s : Span) : s.shift 0 = s := by
  rw [shift, add_zero, add_zero]

/-- Motions of a span add up. -/
@[simp] theorem shift_shift (s : Span) (j k : Int) : (s.shift j).shift k = s.shift (j + k) := by
  simp only [shift, add_assoc]

/-- Values placed by a moved span. -/
theorem pick_shift (s : Span) (k : Int) (d : β) (values : List β) (i : Int) :
    (s.shift k).pick d values i = s.pick d values (i - k) := by
  have hm : s.start + k ≤ i ∧ i < s.stop + k ↔ s.start ≤ i - k ∧ i - k < s.stop := by omega
  have hi : i - (s.start + k) = i - k - s.start := by omega
  simp only [pick, shift, hm, hi]

/-- A slice has as many entries as the span selects. -/
theorem length_slice (s : Span) (xs : List β) : (s.slice xs).length = s.extent xs.length := by
  have hstop : clip xs.length s.stop ≤ xs.length := by
    simp only [clip]
    omega
  rw [slice, List.length_take, List.length_drop]
  simp only [extent, lower]
  omega

/-- A span without negative bounds. -/
def Nonneg (s : Span) : Prop := 0 ≤ s.start ∧ 0 ≤ s.stop

instance (s : Span) : Decidable s.Nonneg := inferInstanceAs (Decidable (_ ∧ _))

/-- A span that lies on an axis of `n` positions. -/
structure On (s : Span) (n : Nat) : Prop where
  nonneg : s.Nonneg
  stop_le : s.stop ≤ n

namespace On

variable {s : Span} {n : Nat}

theorem extent_eq (h : s.On n) : s.extent n = s.length :=
  extent_of_le h.nonneg.1 h.nonneg.2 h.stop_le

/-- The first position of a span that has any. -/
theorem lower_eq (h : s.On n) (hl : 0 < s.length) : s.lower n = s.start.toNat := by
  have := h.nonneg.1
  have := h.stop_le
  simp only [length] at hl
  exact lower_of_le (by omega) (by omega) (by omega)

theorem length_slice (h : s.On n) {xs : List β} (hx : xs.length = n) :
    (s.slice xs).length = s.length := by
  rw [Span.length_slice, hx, h.extent_eq]

/-- A span on the axis of a list selects the same of a longer list. -/
theorem slice_append {xs : List β} (h : s.On xs.length) (ys : List β) :
    s.slice (xs ++ ys) = s.slice xs := by
  have hstop := h.stop_le
  have hlonger : s.On (xs ++ ys).length := ⟨h.nonneg, by rw [List.length_append]; omega⟩
  rw [slice, slice, h.extent_eq, hlonger.extent_eq]
  obtain hempty | hsome := Nat.eq_zero_or_pos s.length
  · rw [hempty, List.take_zero, List.take_zero]
  · have hlen : s.length = (s.stop - s.start).toNat := rfl
    have hstart := h.nonneg.1
    rw [h.lower_eq hsome, hlonger.lower_eq hsome, List.drop_append_of_le_length (by omega),
      List.take_append_of_le_length (by rw [List.length_drop]; omega)]

/-- A span on the axis of a list, moved behind another list, selects the same of both lists. -/
theorem slice_append_shift {ys : List β} (h : s.On ys.length) (xs : List β) :
    (s.shift xs.length).slice (xs ++ ys) = s.slice ys := by
  have hstop := h.stop_le
  have hstart := h.nonneg.1
  have hend := h.nonneg.2
  have hmoved : (s.shift xs.length).On (xs ++ ys).length := by
    refine ⟨⟨?_, ?_⟩, ?_⟩
    · simp only [shift]
      omega
    · simp only [shift]
      omega
    · rw [List.length_append]
      simp only [shift]
      omega
  rw [slice, slice, h.extent_eq, hmoved.extent_eq, length_shift]
  obtain hempty | hsome := Nat.eq_zero_or_pos s.length
  · rw [hempty, List.take_zero, List.take_zero]
  · have hlower : (s.start + (xs.length : Int)).toNat = xs.length + s.start.toNat := by omega
    rw [h.lower_eq hsome, hmoved.lower_eq (by rwa [length_shift])]
    simp only [shift, hlower, List.drop_append, List.drop_eq_nil_of_le (Nat.le_add_right _ _),
      List.nil_append, Nat.add_sub_cancel_left]

/-- The entries of the selected part. -/
theorem getD_slice (h : s.On n) {xs : List β} (hx : xs.length = n) {k : Nat}
    (hk : k < s.length) (d : β) : (s.slice xs).getD k d = xs.getD (s.start.toNat + k) d := by
  rw [slice, hx, h.extent_eq, h.lower_eq (by omega)]
  simp [List.getElem?_drop, hk]

/-- Inside of the span, the selected part says what it was selected from. -/
theorem pick_slice (h : s.On n) (f : Fin n → β) (d : β) {i : Fin n}
    (hi : s.start ≤ (i : Int) ∧ (i : Int) < s.stop) : s.pick d (s.slice (List.ofFn f)) i = f i := by
  have hstart := h.nonneg.1
  have hk : ((i : Int) - s.start).toNat < s.length := by
    simp only [length]
    omega
  have hpos : s.start.toNat + ((i : Int) - s.start).toNat = i := by omega
  rw [pick_of_mem hi, h.getD_slice List.length_ofFn hk, hpos,
    List.getD_eq_getElem _ _ (by simp), List.getElem_ofFn]

end On

/-! ## Accumulation and selection -/

/-- An update keeps what lies outside of the span and picks the rest from the new part. -/
theorem update_ofFn {s : Span} {n : Nat} (hs : s.On n) {f : Fin n → β} {part : List β}
    {change : List β → Except Error (List β)} (h : change (s.slice (List.ofFn f)) = .ok part)
    (hp : part.length = s.length) :
    s.update change (List.ofFn f) = .ok (List.ofFn fun i => s.pick (f i) part i) := by
  have hstart := hs.nonneg.1
  have hstop := hs.stop_le
  have hlen : s.length = (s.stop - s.start).toNat := rfl
  have hlow : s.lower n = min s.start.toNat n := by
    simp only [lower, clip]
    omega
  simp only [update, h, bind, Except.bind, List.length_ofFn, hs.extent_eq]
  congr 1
  refine List.ext_getElem ?_ fun i h₁ h₂ => ?_
  · simp only [List.length_append, List.length_take, List.length_drop, List.length_ofFn]
    have := hs.nonneg.2
    omega
  · simp only [List.length_ofFn] at h₂
    simp only [List.getElem_append, List.length_append, List.length_take, List.length_ofFn,
      List.getElem_take, List.getElem_drop, List.getElem_ofFn]
    by_cases hi : s.start ≤ i ∧ (i : Int) < s.stop
    · rw [pick_of_mem hi, dif_pos (by omega), dif_neg (by omega),
        List.getD_eq_getElem _ _ (by omega)]
      congr 1
      omega
    · rw [pick_of_notMem hi]
      split
      · rw [dif_pos (by omega)]
      · congr 2
        omega

/-- Accumulation replaces the selected part by its sum with the values. -/
theorem accumulate_eq_ofFn [Add K] {s : Span} {n : Nat} (hs : s.On n) {values : List K}
    (hv : values.length = s.length) (f : Fin n → K) :
    s.accumulate values (List.ofFn f) = .ok (List.ofFn fun i =>
      s.pick (f i) (List.zipWith (· + ·) (s.slice (List.ofFn f)) values) i) := by
  have hl : (s.slice (List.ofFn f)).length = s.length := hs.length_slice (by simp)
  have hstretch : stretch (s.slice (List.ofFn f)).length values = .ok values := by
    rw [hl, ← hv]
    exact stretch_self values
  have hpart : (do Except.ok (List.zipWith (· + ·) (s.slice (List.ofFn f))
      (← stretch (s.slice (List.ofFn f)).length values))) =
      Except.ok (List.zipWith (· + ·) (s.slice (List.ofFn f)) values) := by
    rw [hstretch]
    rfl
  rw [accumulate, update_ofFn hs hpart (by simp [hl, hv])]

/-- Accumulation adds what is picked. -/
theorem accumulate_ofFn [AddMonoid K] {s : Span} {n : Nat} (hs : s.On n) {values : List K}
    (hv : values.length = s.length) (f : Fin n → K) :
    s.accumulate values (List.ofFn f) = .ok (List.ofFn fun i => f i + s.pick 0 values i) := by
  have hl : (s.slice (List.ofFn f)).length = s.length := hs.length_slice (by simp)
  rw [accumulate_eq_ofFn hs hv]
  congr 2
  funext i
  by_cases hi : s.start ≤ (i : Int) ∧ (i : Int) < s.stop
  · rw [pick_zipWith _ _ (f i) 0 hl hv hi, hs.pick_slice f _ hi]
  · rw [pick_of_notMem hi, pick_of_notMem hi, add_zero]

/-- Values of any number are accumulated as they are stretched, if they are. -/
theorem accumulate_eq_map [AddMonoid K] {s : Span} {n : Nat} (hs : s.On n) (values : List K)
    (f : Fin n → K) :
    s.accumulate values (List.ofFn f) =
      (stretch s.length values).map fun vs => List.ofFn (f + fun i : Fin n => s.pick 0 vs i) := by
  have hl : (s.slice (List.ofFn f)).length = s.length := hs.length_slice (by simp)
  cases hstretch : stretch s.length values with
  | error e =>
    simp only [accumulate, update, hl, hstretch]
    rfl
  | ok vs =>
    have hvs := length_stretch hstretch
    have hself : stretch s.length vs = .ok vs := hvs ▸ stretch_self vs
    have hacc := accumulate_ofFn hs hvs f
    simp only [accumulate, update, hl, hself] at hacc
    simp only [accumulate, update, hl, hstretch]
    exact hacc

/-- Picking is adjoint to selection. -/
theorem sum_pick_mul [CommSemiring K] {s : Span} {n : Nat} (hs : s.On n) (values : List K)
    (x : Fin n → K) :
    ∑ j : Fin n, s.pick 0 values j * x j = Dense.dot values (s.slice (List.ofFn x)) := by
  have hl : (s.slice (List.ofFn x)).length = s.length := hs.length_slice (by simp)
  have hstart := hs.nonneg.1
  have hstop := hs.stop_le
  have hlen : s.length = s.stop.toNat - s.start.toNat := by
    simp only [length]
    omega
  -- positions outside of the span contribute nothing
  have hsum : ∑ j : Fin n, s.pick 0 values j * x j =
      ∑ j ∈ Finset.Ico s.start.toNat s.stop.toNat,
        s.pick 0 values j * (List.ofFn x).getD j 0 := by
    have hx : ∀ j : Fin n, x j = (List.ofFn x).getD j 0 := fun j => by simp
    simp only [hx]
    rw [Fin.sum_univ_eq_sum_range (fun j => s.pick 0 values j * (List.ofFn x).getD j 0) n]
    refine (Finset.sum_subset (fun j hj => ?_) fun j _ hj => ?_).symm
    · simp only [Finset.mem_Ico, Finset.mem_range] at hj ⊢
      omega
    · simp only [Finset.mem_Ico] at hj
      rw [pick_of_notMem (by omega), zero_mul]
  rw [hsum, Dense.dot_eq_sum, Finset.sum_Ico_eq_sum_range, hl, hlen]
  refine Finset.sum_congr rfl fun k hk => ?_
  have hk : k < s.length := by
    rw [hlen]
    exact Finset.mem_range.1 hk
  rw [hs.getD_slice (by simp) hk, pick_of_mem (by omega)]
  congr 2
  omega

end Span

end LeastSquares
