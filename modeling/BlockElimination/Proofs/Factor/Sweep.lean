import BlockElimination.Factor.Solve
import BlockElimination.Proofs.BlockMatrix.Arithmetic
import BlockElimination.Proofs.BlockMatrix.Symmetric

/-!
# Sweeps

A sweep overwrites segments in place, and a step may read segments that earlier steps have written. No segment changes
once it has been read, so the segments that are left satisfy a system with the segments that were there at the start.
-/
namespace BlockElimination.Factor

open Matrix BlockMatrix

section Packing
variable {F : Type} {dim : String → ℕ} {order : List String}

/-- The segments of a family, in order. -/
def pack (order : List String) (x : ∀ k, Fin (dim k) → F) : Array (String × Array F) :=
  (order.map fun k => (k, Array.ofFn (x k))).toArray

def nameAt (order : List String) (i : ℕ) : String := order.getD i ""

theorem nameAt_eq {i : ℕ} (h : i < order.length) : nameAt order i = order[i] := by simp [nameAt, h]

theorem nameAt_inj (hnodup : order.Nodup) {i j : ℕ} (hi : i < order.length) (hj : j < order.length) :
    nameAt order i = nameAt order j ↔ i = j := by
  rw [nameAt_eq hi, nameAt_eq hj, hnodup.getElem_inj_iff]

theorem map_nameAt (order : List String) : (List.range order.length).map (nameAt order) = order := by
  refine List.ext_getElem (by simp) fun i _ h => ?_
  rw [List.getElem_map, List.getElem_range, nameAt_eq h]

@[simp] theorem size_pack (x : ∀ k, Fin (dim k) → F) : (pack order x).size = order.length := by simp [pack]

theorem getElem?_pack (x : ∀ k, Fin (dim k) → F) {i : ℕ} (h : i < order.length) :
    (pack order x)[i]? = some (nameAt order i, Array.ofFn (x (nameAt order i))) := by
  rw [pack, List.getElem?_toArray, List.getElem?_map, List.getElem?_eq_getElem h, ← nameAt_eq h]
  rfl

theorem setIfInBounds_pack (hnodup : order.Nodup) (x : ∀ k, Fin (dim k) → F) {i : ℕ} (h : i < order.length)
    (v : Fin (dim (nameAt order i)) → F) :
    (pack order x).setIfInBounds i (nameAt order i, Array.ofFn v) =
      pack order (Function.update x (nameAt order i) v) := by
  refine Array.ext_getElem? fun j => ?_
  rw [Array.getElem?_setIfInBounds]
  by_cases hj : j < order.length
  · rw [getElem?_pack _ hj, size_pack, getElem?_pack _ hj]
    by_cases hij : i = j
    · subst hij
      rw [if_pos rfl, if_pos h, Function.update_self]
    · rw [if_neg hij, Function.update_of_ne fun e => hij ((nameAt_inj hnodup hj h).mp e).symm]
  · have hnone : ∀ y : ∀ k, Fin (dim k) → F, (pack order y)[j]? = none := fun y => by simpa using hj
    rw [hnone, hnone, if_neg fun e => hj (by omega)]

theorem sweep_cons [Arith F] (L : BlockMatrix F) (p : ℕ × ℕ) (ps : List (ℕ × ℕ)) (xs : Array (String × Array F)) :
    sweep L (p :: ps) xs = sweep L [p] xs >>= sweep L ps :=
  List.foldlM_append (l := [p])

end Packing

variable {F : Type} [CommRing F] [DecidableEq F] {dim : String → ℕ} {order : List String} {L : BlockMatrix F}

theorem yields_sweep_singleton (hL : L.Conforms dim dim) (hnodup : order.Nodup) {i j : ℕ} (hi : i < order.length)
    (hj : j < order.length) (x : ∀ k, Fin (dim k) → F) :
    Yields (sweep L [(i, j)] (pack order x)) (· = pack order (Function.update x (nameAt order i)
      (x (nameAt order i) - L.block dim dim (nameAt order i) (nameAt order j) *ᵥ x (nameAt order j)))) := by
  rw [sweep, List.foldlM_cons]
  simp only [getElem?_pack x hi, getElem?_pack x hj]
  cases hK : L.get? (nameAt order i) (nameAt order j) with
  | none =>
    have hzero : L.block dim dim (nameAt order i) (nameAt order j) = 0 :=
      block_of_not_contains fun h => by simp [contains, hK] at h
    refine Yields.pure_iff.mpr ?_
    rw [hzero, zero_mulVec, sub_zero, Function.update_eq_self]
  | some K =>
    refine Yields.bind (Yields.bind (LinearMap.yields_actOn (hL.sized hK) (by simp) (by simp)) fun y hy => ?_)
      fun _ h => Yields.pure_iff.mpr h
    refine Yields.pure_iff.mpr ?_
    rw [← setIfInBounds_pack hnodup x hi, block_of_get? hK, ← ofFn_coords hy.1, hy.2, coords_ofFn, coords_ofFn,
      neg_one_smul, one_smul, neg_add_eq_sub]

/-- What a sweep takes from segment `i`, in terms of the segments that it leaves. -/
def taken (L : BlockMatrix F) (order : List String) (pairs : List (ℕ × ℕ)) (y : ∀ k, Fin (dim k) → F) (i : ℕ) :
    Fin (dim (nameAt order i)) → F :=
  (pairs.map fun p => if p.1 = i then
    L.block dim dim (nameAt order i) (nameAt order p.2) *ᵥ y (nameAt order p.2) else 0).sum

/-- If no segment is written after it has been read, a sweep solves a triangular system. -/
theorem yields_sweep (hL : L.Conforms dim dim) (hnodup : order.Nodup) (pairs : List (ℕ × ℕ))
    (hrange : ∀ p ∈ pairs, p.1 < order.length ∧ p.2 < order.length) (hne : ∀ p ∈ pairs, p.1 ≠ p.2)
    (hread : pairs.Pairwise fun p q => p.2 ≠ q.1) (x : ∀ k, Fin (dim k) → F) :
    Yields (sweep L pairs (pack order x)) fun xs => ∃ y, xs = pack order y ∧
      ∀ i < order.length, x (nameAt order i) = y (nameAt order i) + taken L order pairs y i := by
  induction pairs generalizing x with
  | nil => exact Yields.pure_iff.mpr ⟨x, rfl, fun i _ => (add_zero _).symm⟩
  | cons p pairs ih =>
    obtain ⟨i, j⟩ := p
    obtain ⟨hi, hj⟩ := hrange _ List.mem_cons_self
    obtain ⟨hlast, hread⟩ := List.pairwise_cons.mp hread
    have hij : i ≠ j := hne _ List.mem_cons_self
    rw [sweep_cons]
    refine (yields_sweep_singleton hL hnodup hi hj x).bind ?_
    rintro _ rfl
    refine (ih (fun q hq => hrange q (List.mem_cons_of_mem _ hq)) (fun q hq => hne q (List.mem_cons_of_mem _ hq)) hread
      _).mono ?_
    rintro _ ⟨y, rfl, hy⟩
    refine ⟨y, rfl, fun t ht => ?_⟩
    -- Segment `j` is not written any more, so what was read is what is left.
    have hsource : x (nameAt order j) = y (nameAt order j) := by
      have hnone : taken L order pairs y j = 0 := by
        refine List.sum_eq_zero fun v hv => ?_
        obtain ⟨q, hq, rfl⟩ := List.mem_map.mp hv
        exact if_neg fun e => hlast q hq e.symm
      have := hy j hj
      rwa [hnone, add_zero, Function.update_of_ne fun e => hij ((nameAt_inj hnodup hj hi).mp e).symm] at this
    have hcons : taken L order ((i, j) :: pairs) y t = (if i = t then
        L.block dim dim (nameAt order t) (nameAt order j) *ᵥ y (nameAt order j) else 0) + taken L order pairs y t := by
      rw [taken, List.map_cons, List.sum_cons, taken]
    have hyt := hy t ht
    rw [hcons]
    by_cases hit : i = t
    · subst hit
      rw [Function.update_self, sub_eq_iff_eq_add] at hyt
      rw [if_pos rfl, hyt, hsource]
      abel
    · rw [Function.update_of_ne fun e => hit ((nameAt_inj hnodup ht hi).mp e).symm] at hyt
      rw [if_neg hit, zero_add, hyt]

theorem mem_forwardPairs {n : ℕ} {p : ℕ × ℕ} : p ∈ forwardPairs n ↔ p.2 < p.1 ∧ p.1 < n := by
  obtain ⟨i, j⟩ := p
  simp only [forwardPairs, List.mem_flatMap, List.mem_range, List.mem_map, Prod.mk.injEq]
  constructor
  · rintro ⟨c, hc, r, hr, rfl, rfl⟩
    omega
  · rintro ⟨hji, hin⟩
    exact ⟨j, by omega, i - (j + 1), by omega, by omega, rfl⟩

theorem mem_backwardPairs {n : ℕ} {p : ℕ × ℕ} : p ∈ backwardPairs n ↔ p.1 < p.2 ∧ p.2 < n := by
  obtain ⟨i, j⟩ := p
  simp only [backwardPairs, List.mem_flatMap, List.mem_reverse, List.mem_range, List.mem_map, Prod.mk.injEq]
  constructor
  · rintro ⟨c, hc, r, hr, rfl, rfl⟩
    omega
  · rintro ⟨hij, hjn⟩
    exact ⟨j, hjn, i, hij, rfl, rfl⟩

/-- Positions are read by increasing position, and only larger ones are written. -/
theorem pairwise_forwardPairs (n : ℕ) : (forwardPairs n).Pairwise fun p q => p.2 ≠ q.1 := by
  refine List.pairwise_flatMap.mpr ⟨fun j _ => ?_, List.pairwise_lt_range.imp fun {j j'} hlt => ?_⟩
  · refine List.pairwise_map.mpr (List.Pairwise.imp ?_ List.pairwise_lt_range)
    intro r r' _
    dsimp only
    omega
  · simp only [List.mem_map]
    rintro _ ⟨r, -, rfl⟩ _ ⟨r', -, rfl⟩
    dsimp only
    omega

theorem pairwise_backwardPairs (n : ℕ) : (backwardPairs n).Pairwise fun p q => p.2 ≠ q.1 := by
  refine List.pairwise_flatMap.mpr ⟨fun j _ => ?_, List.pairwise_reverse.mpr
    (List.pairwise_lt_range.imp fun {j j'} hlt => ?_)⟩
  · refine List.pairwise_map.mpr (List.pairwise_of_forall_mem_list fun r hr r' hr' => ?_)
    have := List.mem_range.mp (List.mem_reverse.mp hr')
    dsimp only
    omega
  · simp only [List.mem_map, List.mem_reverse, List.mem_range]
    rintro _ ⟨r, hr, rfl⟩ _ ⟨r', hr', rfl⟩
    dsimp only
    omega

theorem sum_map_range {M : Type*} [AddCommMonoid M] (n : ℕ) (f : ℕ → M) :
    ((List.range n).map f).sum = ∑ i ∈ Finset.range n, f i := rfl

theorem sum_forwardPairs {M : Type*} [AddCommMonoid M] {n i : ℕ} (hi : i < n) (g : ℕ → M) :
    ((forwardPairs n).map fun p => if p.1 = i then g p.2 else 0).sum =
      ∑ j ∈ Finset.range n, if j < i then g j else 0 := by
  rw [forwardPairs, sum_map_flatMap, sum_map_range]
  refine Finset.sum_congr rfl fun j _ => ?_
  rw [List.map_map, sum_map_range]
  simp only [Function.comp_apply]
  split
  case isTrue hji =>
    rw [Finset.sum_eq_single_of_mem (i - (j + 1)) (Finset.mem_range.mpr (by omega)), if_pos (by omega)]
    exact fun r _ hr => if_neg (by omega)
  case isFalse hji => exact Finset.sum_eq_zero fun r _ => if_neg (by omega)

theorem sum_backwardPairs {M : Type*} [AddCommMonoid M] (n i : ℕ) (g : ℕ → M) :
    ((backwardPairs n).map fun p => if p.1 = i then g p.2 else 0).sum =
      ∑ j ∈ Finset.range n, if i < j then g j else 0 := by
  rw [backwardPairs, sum_map_flatMap, List.map_reverse, List.sum_reverse, sum_map_range]
  refine Finset.sum_congr rfl fun j _ => ?_
  rw [List.map_map, List.map_reverse, List.sum_reverse, sum_map_range]
  simp only [Function.comp_apply, Finset.sum_ite_eq', Finset.mem_range]

theorem sum_order {M : Type*} [AddCommMonoid M] (hnodup : order.Nodup) (f : String → M) :
    ∑ k ∈ order.toFinset, f k = ∑ j ∈ Finset.range order.length, f (nameAt order j) := by
  rw [List.sum_toFinset _ hnodup, ← sum_map_range]
  conv_lhs => rw [← map_nameAt order, List.map_map]
  rfl

/-- What is taken from a segment is a row of the matrix times the vector, where the row is zero at all other names. -/
theorem taken_eq_sum {pairs : List (ℕ × ℕ)} {y : ∀ k, Fin (dim k) → F} {i : ℕ} {p : ℕ → Prop} [DecidablePred p]
    (hsum : ∀ g : ℕ → Fin (dim (nameAt order i)) → F, (pairs.map fun q => if q.1 = i then g q.2 else 0).sum =
      ∑ j ∈ Finset.range order.length, if p j then g j else 0)
    (hzero : ∀ j < order.length, ¬p j → ¬L.contains (nameAt order i) (nameAt order j)) (hnodup : order.Nodup) :
    taken L order pairs y i = ∑ k ∈ order.toFinset, L.block dim dim (nameAt order i) k *ᵥ y k := by
  rw [taken, hsum fun j => L.block dim dim (nameAt order i) (nameAt order j) *ᵥ y (nameAt order j),
    sum_order hnodup]
  refine Finset.sum_congr rfl fun j hj => ?_
  split
  case isTrue => rfl
  case isFalse h => rw [block_of_not_contains (hzero j (Finset.mem_range.mp hj) h), zero_mulVec]

/-- Every block has its column before its row. -/
def Descends (L : BlockMatrix F) (order : List String) : Prop :=
  ∀ {i j}, L.contains i j → ∃ p q : ℕ, p < q ∧ order[p]? = some j ∧ order[q]? = some i

omit [CommRing F] [DecidableEq F] in
theorem Descends.lt (h : Descends L order) (hnodup : order.Nodup) {i j : ℕ} (hi : i < order.length)
    (hj : j < order.length) (hc : L.contains (nameAt order i) (nameAt order j)) : j < i := by
  have hposition : ∀ {p t}, t < order.length → order[p]? = some (nameAt order t) → p = t := fun ht hp => by
    obtain ⟨hlt, hp⟩ := List.getElem?_eq_some_iff.mp hp
    exact (nameAt_inj hnodup hlt ht).mp ((nameAt_eq hlt).trans hp)
  obtain ⟨p, q, hpq, hp, hq⟩ := h hc
  rwa [hposition hj hp, hposition hi hq] at hpq

/-- The forward sweep solves `(I + L) y = x`. -/
theorem yields_forwardSweep (hL : L.Conforms dim dim) (hnodup : order.Nodup) (h : Descends L order)
    (x : ∀ k, Fin (dim k) → F) :
    Yields (sweep L (forwardPairs order.length) (pack order x)) fun xs => ∃ y, xs = pack order y ∧
      ∀ i ∈ order, x i = y i + ∑ k ∈ order.toFinset, L.block dim dim i k *ᵥ y k := by
  have hsweep := yields_sweep hL hnodup (forwardPairs order.length)
    (fun p hp => by have := mem_forwardPairs.mp hp; omega) (fun p hp => by have := mem_forwardPairs.mp hp; omega)
    (pairwise_forwardPairs _) x
  refine hsweep.mono ?_
  rintro _ ⟨y, rfl, hy⟩
  refine ⟨y, rfl, fun i hi => ?_⟩
  obtain ⟨t, ht, rfl⟩ := List.getElem_of_mem hi
  rw [← nameAt_eq ht, hy t ht,
    taken_eq_sum (sum_forwardPairs ht) (fun j hj hnot hc => hnot (h.lt hnodup ht hj hc)) hnodup]

/-- The backward sweep with the transposed blocks solves `(I + L)ᵀ y = x`. -/
theorem yields_backwardSweep {U : BlockMatrix F} (hU : U.Conforms dim dim) (hnodup : order.Nodup)
    (h : Descends L order) (heq : ∀ i j, U.get? j i = (L.get? i j).map LinearMap.transpose)
    (x : ∀ k, Fin (dim k) → F) :
    Yields (sweep U (backwardPairs order.length) (pack order x)) fun xs => ∃ y, xs = pack order y ∧
      ∀ i ∈ order, x i = y i + ∑ k ∈ order.toFinset, (L.block dim dim k i)ᵀ *ᵥ y k := by
  have hcontains : ∀ {i j}, U.contains j i → L.contains i j := fun {i j} hc => by
    rwa [contains, heq, Option.isSome_map] at hc
  have hsweep := yields_sweep hU hnodup (backwardPairs order.length)
    (fun p hp => by have := mem_backwardPairs.mp hp; omega) (fun p hp => by have := mem_backwardPairs.mp hp; omega)
    (pairwise_backwardPairs _) x
  refine hsweep.mono ?_
  rintro _ ⟨y, rfl, hy⟩
  refine ⟨y, rfl, fun i hi => ?_⟩
  obtain ⟨t, ht, rfl⟩ := List.getElem_of_mem hi
  rw [← nameAt_eq ht, hy t ht, taken_eq_sum (sum_backwardPairs _ t)
    (fun j hj hnot hc => hnot (h.lt hnodup hj ht (hcontains hc))) hnodup]
  congr 1
  exact Finset.sum_congr rfl fun k _ => by rw [block_of_transpose heq]

end BlockElimination.Factor
