import BlockElimination.Proofs.BlockMatrix.Matched
import BlockElimination.Proofs.BlockMatrix.Transpose

/-!
# Block matrices and their inverses

The blocks of a matched matrix alone settle which dimension belongs to which name, even where the matrix is square only
as a whole. A block of the inverse meets the one block that it inverts and no other, so the products on either side are
identities over the names of the rows or of the columns.
-/
namespace BlockElimination.BlockMatrix

open Matrix

section Rows
variable {F : Type} {A : BlockMatrix F} {m n : String → ℕ}

theorem get?_rowHeads (A : BlockMatrix F) (i : String) :
    A.rowHeads.get? i = (A.blocks.find? (·.1 = i)).map (·.2.2) := by
  suffices h : ∀ (l : List (String × String × LinearMap F)) (heads : Keyed (LinearMap F)),
      (l.foldl (fun heads t => if heads.contains t.1 then heads else heads.insert t.1 t.2.2) heads).get? i =
        (heads.get? i).or ((l.find? (·.1 = i)).map (·.2.2)) by
    exact (h A.blocks ∅).trans (by simp)
  intro l
  induction l with
  | nil => simp
  | cons t l ih =>
    obtain ⟨row, col, a⟩ := t
    intro heads
    rw [List.foldl_cons, ih, List.find?_cons]
    by_cases hi : row = i
    · subst hi
      cases hget : heads.get? row <;> simp [Keyed.contains, hget]
    · cases heads.contains row <;> simp [hi, Ne.symm hi]

theorem mem_rowKeys {i : String} : i ∈ A.rowKeys ↔ ∃ j, A.contains i j := by
  rw [rowKeys, Keyed.mem_keys, Keyed.contains, get?_rowHeads, Option.isSome_map, List.find?_isSome]
  simp only [decide_eq_true_eq, Prod.exists, mem_blocks, contains_iff]
  constructor
  · rintro ⟨r, j, K, hK, rfl⟩
    exact ⟨j, K, hK⟩
  · rintro ⟨j, K, hK⟩
    exact ⟨i, j, K, hK, rfl⟩

theorem exists_get?_of_rowHeads {i : String} {K : LinearMap F} (h : A.rowHeads.get? i = some K) :
    ∃ j, A.get? i j = some K := by
  rw [get?_rowHeads] at h
  obtain ⟨⟨r, j, L⟩, hfind, rfl⟩ := Option.map_eq_some_iff.mp h
  obtain rfl : r = i := by simpa using List.find?_some hfind
  exact ⟨j, mem_blocks.mp (List.mem_of_find?_eq_some hfind)⟩

theorem Conforms.yields_leftIdentity [Arith F] (h : A.Conforms m n) : Yields A.leftIdentity fun I =>
    I.Conforms m m ∧ ∀ i j K, I.get? i j = some K ↔ i = j ∧ j ∈ A.rowKeys ∧ K = .identity (m j) := by
  have hcounts : Yields (A.blocks.mapM fun t => t.2.2.rowCount) (· = A.blocks.map fun t => m t.1) :=
    Yields.mapM _ fun t ht => LinearMap.yields_rowCount (h.sized (mem_blocks.mp ht))
  have hdims : Yields (A.rowHeads.entries.mapM fun p => (p.1, ·) <$> p.2.rowCount)
      (· = A.rowHeads.entries.map fun p => (p.1, m p.1)) := by
    refine Yields.mapM _ fun p hp => ?_
    obtain ⟨j, hK⟩ := exists_get?_of_rowHeads ((Keyed.mem_entries_iff _ _ _).mp hp)
    exact Yields.map ((LinearMap.yields_rowCount (h.sized hK)).mono fun _ hs => hs ▸ rfl)
  refine hcounts.bind fun _ _ => hdims.bind ?_
  rintro _ rfl
  have hmap : (A.rowHeads.entries.map fun p => (p.1, m p.1)) = A.rowKeys.map fun k => (k, m k) := by
    rw [rowKeys, Keyed.keys, List.map_map]
    rfl
  rw [hmap]
  exact yields_identity (Keyed.nodup_keys _) m

/-- Where rows and columns agree on their dimensions, the first block of each may name it. -/
theorem Occupied.exists_conforms (hA : A.Occupied)
    (hrows : ∀ {i j k K L}, A.get? i j = some K → A.get? i k = some L → K.rows = L.rows)
    (hcols : ∀ {i j k K L}, A.get? i k = some K → A.get? j k = some L → K.cols = L.cols) : ∃ m n, A.Conforms m n := by
  have hrow : ∀ i, ∃ r, ∀ j K, A.get? i j = some K → K.rows = r := fun i => by
    by_cases hi : ∃ j K, A.get? i j = some K
    · obtain ⟨j, K, hK⟩ := hi
      exact ⟨K.rows, fun j' L hL => hrows hL hK⟩
    · exact ⟨0, fun j K hK => absurd ⟨j, K, hK⟩ hi⟩
  have hcol : ∀ j, ∃ c, ∀ i K, A.get? i j = some K → K.cols = c := fun j => by
    by_cases hj : ∃ i K, A.get? i j = some K
    · obtain ⟨i, K, hK⟩ := hj
      exact ⟨K.cols, fun i' L hL => hcols hL hK⟩
    · exact ⟨0, fun i K hK => absurd ⟨i, K, hK⟩ hj⟩
  choose m hm using hrow
  choose n hn using hcol
  exact ⟨m, n, fun hK => ⟨hm _ _ _ hK, hn _ _ _ hK⟩, hA⟩

theorem Matched.exists_conforms (h : A.Matched) (hA : A.Occupied) : ∃ m n, A.Conforms m n := by
  refine hA.exists_conforms (fun hK hL => ?_) fun hK hL => ?_
  · obtain rfl := h.col_eq (contains_iff.mpr ⟨_, hK⟩) (contains_iff.mpr ⟨_, hL⟩)
    rw [Option.some.inj (hK.symm.trans hL)]
  · obtain rfl := h.row_eq (contains_iff.mpr ⟨_, hK⟩) (contains_iff.mpr ⟨_, hL⟩)
    rw [Option.some.inj (hK.symm.trans hL)]

end Rows

section Inverses
variable {F ε : Type} [CommRing F] [DecidableEq F] {A C P I : BlockMatrix F} {m n : String → ℕ}

/-- The blocks of `C` stand at the places of those of `A` with rows and columns exchanged, and they invert these. -/
structure Inverts (m n : String → ℕ) (A C : BlockMatrix F) : Prop where
  conforms : A.Conforms m n
  inverse_conforms : C.Conforms n m
  matched : A.Matched
  contains_iff : ∀ i j, C.contains j i ↔ A.contains i j
  mul_inverse : ∀ {i j}, A.contains i j → A.block m n i j * C.block n m j i = 1
  inverse_mul : ∀ {i j}, A.contains i j → C.block n m j i * A.block m n i j = 1

theorem Inverts.symm (h : Inverts m n A C) : Inverts n m C A where
  conforms := h.inverse_conforms
  inverse_conforms := h.conforms
  matched := ⟨fun hi hi' => h.matched.col_eq ((h.contains_iff _ _).mp hi) ((h.contains_iff _ _).mp hi'),
    fun hj hj' => h.matched.row_eq ((h.contains_iff _ _).mp hj) ((h.contains_iff _ _).mp hj')⟩
  contains_iff i j := (h.contains_iff j i).symm
  mul_inverse hc := h.inverse_mul ((h.contains_iff _ _).mp hc)
  inverse_mul hc := h.mul_inverse ((h.contains_iff _ _).mp hc)

theorem Inverts.sameBlocks (h : Inverts m n A C) (hP : ProductOf m n m A.names A C P) (hI : I.Conforms m m)
    {keys : List String} (hkeys : ∀ i, i ∈ keys ↔ ∃ k, A.contains i k)
    (hget : ∀ i j K, I.get? i j = some K ↔ i = j ∧ j ∈ keys ∧ K = .identity (m j)) : SameBlocks P I := by
  have hmeet : ∀ {i j k}, A.contains i k ∧ C.contains k j → i = j := fun hk =>
    h.matched.row_eq hk.1 ((h.contains_iff _ _).mp hk.2)
  refine hP.conforms.sameBlocks hI (fun i j => ?_) fun i j => ?_
  · rw [hP.contains_iff, BlockMatrix.contains_iff]
    simp only [hget, hkeys]
    constructor
    · rintro ⟨k, hk⟩
      exact ⟨_, hmeet hk, ⟨k, (h.contains_iff _ _).mp hk.2⟩, rfl⟩
    · rintro ⟨_, rfl, ⟨k, hk⟩, -⟩
      exact ⟨k, hk, (h.contains_iff _ _).mpr hk⟩
  · rw [hP.block_eq, block_of_identity hget]
    by_cases hplace : i = j ∧ j ∈ keys
    · obtain ⟨rfl, hi⟩ := hplace
      obtain ⟨k, hk⟩ := (hkeys i).mp hi
      rw [if_pos hi, unit_self, ← h.mul_inverse hk]
      refine Finset.sum_eq_single_of_mem k (mem_names.mpr (mem_colKeys_of_contains hk)) fun k' _ hne => ?_
      exact block_mul_eq_zero fun hk' => hne (h.matched.col_eq hk'.1 hk)
    · rw [Finset.sum_eq_zero fun k _ => block_mul_eq_zero fun hk =>
        hplace ⟨hmeet hk, (hkeys j).mpr ⟨k, (h.contains_iff _ _).mp hk.2⟩⟩]
      split
      case isTrue hj => exact (unit_of_ne fun e => hplace ⟨e, hj⟩).symm
      case isFalse => rfl

theorem Inverts.returns_leftIdentity (h : Inverts m n A C) :
    (A.mul C : Outcome ε (BlockMatrix F)).Returns fun P => Yields A.leftIdentity (SameBlocks P ·) := by
  refine (h.conforms.yields_mul h.inverse_conforms fun _ => mem_names.mpr).mono (fun P hP => ?_) fun _ hf => hf
  exact h.conforms.yields_leftIdentity.mono fun I hI => h.sameBlocks hP hI.1 (fun _ => mem_rowKeys) hI.2

theorem Inverts.returns_rightIdentity (h : Inverts m n A C) :
    (C.mul A : Outcome ε (BlockMatrix F)).Returns fun P => Yields A.rightIdentity (SameBlocks P ·) := by
  refine (h.inverse_conforms.yields_mul h.conforms fun _ => mem_names.mpr).mono (fun P hP => ?_) fun _ hf => hf
  refine h.conforms.yields_rightIdentity.mono fun I hI => h.symm.sameBlocks hP hI.1 (fun j => ?_) hI.2
  rw [h.conforms.occupied.mem_colKeys]
  exact exists_congr fun i => (h.contains_iff i j).symm

end Inverses

section Answers
variable {F : Type} [Scalar F] {A C : BlockMatrix F} {eps : F}

theorem exists_counts_of_inverse (h : (A.inverse eps).result = .ok C) :
    (∃ m, A.rowCount = .ok m) ∧ ∃ n, A.colCount = .ok n := by
  obtain ⟨m, hm, h⟩ := Outcome.exists_of_bind_eq_ok h
  obtain ⟨n, hn, -⟩ := Outcome.exists_of_bind_eq_ok h
  exact ⟨⟨m, Outcome.ofExcept_result_eq_ok_iff.mp hm⟩, n, Outcome.ofExcept_result_eq_ok_iff.mp hn⟩

/-- `C` has exactly the inverses of the blocks of `A`, at their places with rows and columns exchanged. -/
def InvertsBlocks (eps : F) (A C : BlockMatrix F) : Prop :=
  (∀ i j, C.contains j i ↔ A.contains i j) ∧
    ∀ i j K, A.get? i j = some K → ∃ J, (K.inverse eps).result = .ok J ∧ C.get? j i = some J

theorem InvertsAll.invertsBlocks (h : InvertsAll eps A.blocks C) : InvertsBlocks eps A C := by
  have hget : ∀ i j J, C.get? j i = some J ↔ ∃ K, A.get? i j = some K ∧ (K.inverse eps).result = .ok J := by
    intro i j J
    rw [h.get?_eq_some_iff]
    simp only [mem_blocks]
  have hinverse : ∀ i j K, A.get? i j = some K → ∃ J, (K.inverse eps).result = .ok J ∧ C.get? j i = some J :=
    fun i j K hK => by
      obtain ⟨J, hJ⟩ := h.inverted (i, j, K) (mem_blocks.mpr hK)
      exact ⟨J, hJ, (hget i j J).mpr ⟨K, hK, hJ⟩⟩
  refine ⟨fun i j => ?_, hinverse⟩
  rw [contains_iff, contains_iff]
  constructor
  · rintro ⟨J, hJ⟩
    obtain ⟨K, hK, -⟩ := (hget i j J).mp hJ
    exact ⟨K, hK⟩
  · rintro ⟨K, hK⟩
    obtain ⟨J, -, hJ⟩ := hinverse i j K hK
    exact ⟨J, hJ⟩

end Answers

section Exact
variable {E : Type} [Field E] [LinearOrder E] [IsStrictOrderedRing E] {A C : BlockMatrix E} {eps : E}

/-- Every block is square and symmetric. -/
def SymmetricBlocks (A : BlockMatrix E) : Prop :=
  ∀ i j K, A.get? i j = some K → ∃ d, K.Sized d d ∧ (K.matrix d d).IsSymm

theorem sized_inverse_and_mul_eq_one (heps : 0 ≤ eps) {K J : LinearMap E} {d m n : ℕ} (hK : K.Sized m n)
    (hd : K.Sized d d) (hsymm : (K.matrix d d).IsSymm) (hJ : (K.inverse eps).result = .ok J) :
    J.Sized n m ∧ K.matrix m n * J.matrix n m = 1 ∧ J.matrix n m * K.matrix m n = 1 := by
  obtain rfl : d = m := hd.1.symm.trans hK.1
  obtain rfl : d = n := hd.2.symm.trans hK.2
  have hinv := (LinearMap.yields_inverse heps hd).of_result_eq_ok hJ
  have hmul := hinv.mul_eq_one (.of_isSymm hsymm)
  exact ⟨hinv.sized, hmul, mul_eq_one_comm.mp hmul⟩

theorem SymmetricBlocks.exists_inverts (h : A.SymmetricBlocks) (heps : 0 ≤ eps) (hA : A.Occupied)
    (hC : (A.inverse eps).result = .ok C) : ∃ m n, Inverts m n A C := by
  obtain ⟨⟨p, hp⟩, q, hq⟩ := exists_counts_of_inverse hC
  obtain ⟨-, hmatched, hinverts⟩ := (hA.ends_inverse hp hq eps).of_result_eq_ok hC
  obtain ⟨hcontains, hinverse⟩ := hinverts.invertsBlocks
  obtain ⟨m, n, hconforms⟩ := hmatched.exists_conforms hA
  have hblock : ∀ {i j K}, A.get? i j = some K → ∃ J, C.get? j i = some J ∧ J.Sized (n j) (m i) ∧
      K.matrix (m i) (n j) * J.matrix (n j) (m i) = 1 ∧ J.matrix (n j) (m i) * K.matrix (m i) (n j) = 1 := by
    intro i j K hK
    obtain ⟨d, hd, hsymm⟩ := h i j K hK
    obtain ⟨J, hJ, hget⟩ := hinverse i j K hK
    exact ⟨J, hget, sized_inverse_and_mul_eq_one heps (hconforms.sized hK) hd hsymm hJ⟩
  have hpair : ∀ {i j}, A.contains i j →
      A.block m n i j * C.block n m j i = 1 ∧ C.block n m j i * A.block m n i j = 1 := fun hc => by
    obtain ⟨K, hK⟩ := contains_iff.mp hc
    obtain ⟨J, hJ, -, hmul⟩ := hblock hK
    rwa [block_of_get? hK, block_of_get? hJ]
  refine ⟨m, n, hconforms, ⟨fun {j i L} hL => ?_, hinverts.occupied⟩, hmatched, hcontains, fun hc => (hpair hc).1,
    fun hc => (hpair hc).2⟩
  obtain ⟨K, hK⟩ := contains_iff.mp ((hcontains i j).mp (contains_iff.mpr ⟨L, hL⟩))
  obtain ⟨J, hJ, hsized, -⟩ := hblock hK
  rwa [Option.some.inj (hL.symm.trans hJ)]

end Exact

/-- The four answers of an inversion, in the order in which they are looked for, and no other. An inverse has the
inverses of the blocks, and those of symmetric blocks make it an inverse of the whole matrix on both sides. -/
theorem inverse_outcome (F E ε : Type) [Scalar F] [Field E] [LinearOrder E] [IsStrictOrderedRing E] :
    (∀ (A : BlockMatrix F) (eps : F) (m n : ℕ), A.Occupied → A.rowCount = .ok m → A.colCount = .ok n →
      (∀ p q, (A.inverse eps).result = .error (.error (.notSquare p q)) ↔ m ≠ n ∧ p = m ∧ q = n) ∧
      ((A.inverse eps).result = .error (.error .notBlockDiagonal) ↔ m = n ∧
        ((∃ i i' j, i ≠ i' ∧ A.contains i j ∧ A.contains i' j) ∨
          ∃ i j j', j ≠ j' ∧ A.contains i j ∧ A.contains i j')) ∧
      (∀ e, (A.inverse eps).result = .error (.error (.linearMap e)) ↔
        m = n ∧ A.Matched ∧ A.blocks.findSome? (fun t => failure? eps t.2.2) = some e) ∧
      ((∃ C, (A.inverse eps).result = .ok C) ↔
        m = n ∧ A.Matched ∧ A.blocks.findSome? (fun t => failure? eps t.2.2) = none) ∧
      ∀ C, (A.inverse eps).result = .ok C → C.Occupied ∧ InvertsBlocks eps A C) ∧
    ∀ (A C : BlockMatrix E) (eps : E), A.Occupied → A.SymmetricBlocks → 0 ≤ eps → (A.inverse eps).result = .ok C →
      (A.mul C : Outcome ε (BlockMatrix E)).Returns (fun P => Yields A.leftIdentity (SameBlocks P ·)) ∧
      (C.mul A : Outcome ε (BlockMatrix E)).Returns fun P => Yields A.rightIdentity (SameBlocks P ·) := by
  constructor
  · intro A eps m n hA hm hn
    rw [← not_matched_iff]
    have hends := hA.ends_inverse hm hn eps
    cases hresult : (A.inverse eps).result with
    | ok C =>
      obtain ⟨heq, hmatched, hC⟩ := hends.of_result_eq_ok hresult
      simp [heq, hmatched, hC.failure?_eq_none, hC.occupied, hC.invertsBlocks]
    | error s =>
      cases s with
      | fault f => exact (hends.of_result_eq_fault hresult).elim
      | error e =>
        rcases hends.of_result_eq_error hresult with ⟨hne, rfl⟩ | ⟨heq, hnot, rfl⟩ | ⟨heq, hmatched, e, rfl, hfirst⟩
        · simp [hne, eq_comm]
        · simp [heq, hnot]
        · simp [heq, hmatched, hfirst]
  · intro A C eps hA hsymm heps hC
    obtain ⟨m, n, h⟩ := hsymm.exists_inverts heps hA hC
    exact ⟨h.returns_leftIdentity, h.returns_rightIdentity⟩

/-- Two blocks with exchanged names, one of them a Kronecker product. -/
def exchanged : BlockMatrix ℚ :=
  (empty.set "a" "q" (.kron (.ofScalar 1 2) (.ofEntries 2 2 fun i j => if i = j then 2 else 1))).set "b" "p"
    (.ofDiagonal #[4, -1, 2])

/-- Two blocks that are square together but not each on its own. -/
def staircase : BlockMatrix ℚ :=
  (empty.set "a" "p" (.ofEntries 1 2 fun _ _ => 1)).set "b" "q" (.ofEntries 2 1 fun _ _ => 1)

theorem symmetricBlocks_exchanged : exchanged.SymmetricBlocks := by
  intro i j K hK
  simp only [exchanged, get?_set, get?_empty] at hK
  split at hK
  · obtain rfl := Option.some.inj hK
    exact ⟨3, ⟨rfl, rfl⟩, by decide +kernel⟩
  · split at hK
    · obtain rfl := Option.some.inj hK
      exact ⟨2, ⟨rfl, rfl⟩, by decide +kernel⟩
    · cases hK

theorem exchanged_inverse :
    (∃ C P Q I J, (exchanged.inverse 0).result = .ok C ∧ InvertsBlocks 0 exchanged C ∧
      (exchanged.mul C : Outcome Unit (BlockMatrix ℚ)).result = .ok P ∧ exchanged.leftIdentity = .ok I ∧
      SameBlocks P I ∧ (C.mul exchanged : Outcome Unit (BlockMatrix ℚ)).result = .ok Q ∧
      exchanged.rightIdentity = .ok J ∧ SameBlocks Q J) ∧
    (staircase.inverse 0).result = .error (.error (.linearMap (.notSquare 1 2))) := by
  obtain ⟨hanswers, hproducts⟩ := inverse_outcome ℚ ℚ Unit
  have hexchanged : exchanged.Occupied := (occupied_empty.set _ _ _).set _ _ _
  have hstaircase : staircase.Occupied := (occupied_empty.set _ _ _).set _ _ _
  obtain ⟨-, -, -, -, hinverts⟩ := hanswers exchanged 0 5 5 hexchanged (by decide +kernel) (by decide +kernel)
  obtain ⟨-, -, hfails, -, -⟩ := hanswers staircase 0 3 3 hstaircase (by decide +kernel) (by decide +kernel)
  obtain ⟨C, hC⟩ := exists_eq_ok (show (exchanged.inverse 0).result.toBool = true by decide +kernel)
  have hmul : ∀ B ∈ (exchanged.inverse 0).result.toOption,
      (exchanged.mul B : Outcome Unit (BlockMatrix ℚ)).result.toBool = true ∧
        (B.mul exchanged : Outcome Unit (BlockMatrix ℚ)).result.toBool = true := by decide +kernel
  obtain ⟨hleft, hright⟩ := hmul C (by rw [hC]; exact rfl)
  obtain ⟨P, hP⟩ := exists_eq_ok hleft
  obtain ⟨Q, hQ⟩ := exists_eq_ok hright
  obtain ⟨I, hI⟩ := exists_eq_ok (show exchanged.leftIdentity.toBool = true by decide +kernel)
  obtain ⟨J, hJ⟩ := exists_eq_ok (show exchanged.rightIdentity.toBool = true by decide +kernel)
  obtain ⟨hmulInverse, hinverseMul⟩ := hproducts exchanged C 0 hexchanged symmetricBlocks_exchanged le_rfl hC
  have hmatched : staircase.Matched := hstaircase.isBlockDiagonal_iff.mp (by decide +kernel)
  exact ⟨⟨C, P, Q, I, J, hC, (hinverts C hC).2, hP, hI, (hmulInverse.of_result_eq_ok hP).of_eq_ok hI, hQ, hJ,
    (hinverseMul.of_result_eq_ok hQ).of_eq_ok hJ⟩, (hfails _).mpr ⟨rfl, hmatched, by decide +kernel⟩⟩

end BlockElimination.BlockMatrix
