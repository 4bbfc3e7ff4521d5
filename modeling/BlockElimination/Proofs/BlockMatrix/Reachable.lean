import BlockElimination.BlockMatrix.Inverse
import BlockElimination.Proofs.BlockMatrix.Pattern
import BlockElimination.Proofs.LinearMap.Sums

/-!
# Block matrices that operations lead to

No operation leaves a column without blocks or with two column counts, also where an insertion ends in a fault. So
an insertion is refused for the shape of its block only, although it looks at nothing but the first block of the
column, and a refused one takes back nothing, since a column that it could have opened has no block to disagree with.
-/
namespace BlockElimination

namespace LinearMap

@[simp] theorem rows_share {F : Type} (K : LinearMap F) (next : ℕ) : (K.share next).1.rows = K.rows := by
  induction K generalizing next with
  | dense d => rfl
  | kron a b iha ihb => simp [share, rows, iha, ihb]
  | diag d => simp [share, rows]
  | scalar n alpha => rfl

@[simp] theorem cols_share {F : Type} (K : LinearMap F) (next : ℕ) : (K.share next).1.cols = K.cols := by
  induction K generalizing next with
  | dense d => rfl
  | kron a b iha ihb => simp [share, cols, iha, ihb]
  | diag d => simp [share, cols]
  | scalar n alpha => rfl

theorem fits_share {F : Type} (K : LinearMap F) (next : ℕ) : (K.share next).1.Fits ↔ K.Fits := by
  induction K generalizing next with
  | dense d => exact Iff.rfl
  | kron a b iha ihb => simp only [share, fits_kron, iha, ihb, rows_share, cols_share]
  | diag d => simp [share, Fits]
  | scalar n alpha => exact Iff.rfl

/-- `L` is `K`, with further marks if need be. -/
def SharedFrom {F : Type} (K L : LinearMap F) : Prop := L = K ∨ ∃ next, L = (K.share next).1

theorem SharedFrom.cols_eq {F : Type} {K L : LinearMap F} (h : K.SharedFrom L) : L.cols = K.cols := by
  obtain rfl | ⟨next, rfl⟩ := h
  · rfl
  · exact K.cols_share next

theorem SharedFrom.fits_iff {F : Type} {K L : LinearMap F} (h : K.SharedFrom L) : L.Fits ↔ K.Fits := by
  obtain rfl | ⟨next, rfl⟩ := h
  · rfl
  · exact K.fits_share next

end LinearMap

namespace BlockMatrix

variable {F : Type} {A B : BlockMatrix F} {row col : String} {K : LinearMap F}

section Opening

theorem openColumn_of_some {column : Keyed (LinearMap F)} (h : A.column? col = some column) :
    A.openColumn col = A := by
  refine congrArg BlockMatrix.mk (Keyed.ext_get? fun k => ?_)
  rw [Keyed.get?_insert, h, Option.getD_some]
  split
  case isTrue hk => rw [hk, ← h, column?]
  case isFalse => rfl

@[simp] theorem getD_column?_openColumn (A : BlockMatrix F) (col : String) :
    ((A.openColumn col).column? col).getD ∅ = (A.column? col).getD ∅ := by
  simp [openColumn, column?]

@[simp] theorem get?_openColumn (A : BlockMatrix F) (row col : String) :
    (A.openColumn col).get? row col = A.get? row col := by
  cases h : A.columns.get? col <;> simp [openColumn, get?, column?, h]

@[simp] theorem set_openColumn (A : BlockMatrix F) (row col : String) (K : LinearMap F) :
    (A.openColumn col).set row col K = A.set row col K := by
  rw [set, set, getD_column?_openColumn]
  refine congrArg BlockMatrix.mk (Keyed.ext_get? fun k => ?_)
  simp only [openColumn, Keyed.get?_insert]
  split <;> rfl

variable [Arith F]

/-- An insertion in place leaves what an insertion returns, and what was there before if that is a fault. -/
theorem insertInPlace_eq (A : BlockMatrix F) (row col : String) (K : LinearMap F) :
    A.insertInPlace row col K =
      match A.insertOrAdd row col K with
      | .ok B => (B, .ok ())
      | .error f => (A, .error f) := by
  simp only [insertInPlace, insertOrAdd, getD_column?_openColumn, get?_openColumn, set_openColumn]
  cases hcolumn : A.column? col with
  | none => simp [checkColumn, Keyed.first?, get?, hcolumn, bind, Except.bind, pure, Except.pure]
  | some column =>
    rw [openColumn_of_some hcolumn]
    cases checkColumn ((some column).getD ∅) col K with
    | error f => rfl
    | ok =>
      cases A.get? row col with
      | none => rfl
      | some a =>
        simp only
        cases a.add K <;> rfl

theorem snd_insertInPlace (A : BlockMatrix F) (row col : String) (K : LinearMap F) :
    (A.insertInPlace row col K).2 = (A.insertOrAdd row col K).map fun _ => () := by
  rw [insertInPlace_eq]
  cases A.insertOrAdd row col K <;> rfl

end Opening

theorem Occupied.share (h : A.Occupied) (next : ℕ) : (A.share next).1.Occupied :=
  List.foldlRecOn (motive := fun s : BlockMatrix F × ℕ => s.1.Occupied) A.blocks _ h fun _ hs t _ => hs.set t.1 t.2.1 _

/-- Sharing leaves every block in its place. -/
theorem exists_get?_of_share {next : ℕ} {i j : String} {L : LinearMap F} (h : (A.share next).1.get? i j = some L) :
    ∃ M, A.get? i j = some M ∧ M.SharedFrom L := by
  have hfold : ∀ i j L, (A.share next).1.get? i j = some L → ∃ M, A.get? i j = some M ∧ M.SharedFrom L := by
    refine List.foldlRecOn (motive := fun s : BlockMatrix F × ℕ => ∀ i j L, s.1.get? i j = some L →
      ∃ M, A.get? i j = some M ∧ M.SharedFrom L) A.blocks _ (fun _ _ L hL => ⟨L, hL, .inl rfl⟩) ?_
    rintro ⟨B, next⟩ hB ⟨r, c, a⟩ ha i j L hL
    rw [get?_set] at hL
    split at hL
    case isTrue hplace =>
      obtain ⟨rfl, rfl⟩ := hplace
      exact ⟨a, mem_blocks.mp ha, .inr ⟨next, (Option.some.inj hL).symm⟩⟩
    case isFalse => exact hB i j L hL
  exact hfold i j L h

theorem exists_first? {i : String} {L : LinearMap F} (h : A.get? i col = some L) :
    ∃ p, ((A.column? col).getD ∅).first? = some p := by
  obtain ⟨column, hcolumn, hL⟩ := get?_eq_some.mp h
  have hmem := (Keyed.mem_entries_iff _ _ _).mpr hL
  rw [hcolumn]
  exact ⟨_, List.head?_eq_some_head (List.ne_nil_of_mem hmem)⟩

/-- Every column has a block, and its blocks have one column count. -/
structure WellFormed (A : BlockMatrix F) : Prop where
  occupied : A.Occupied
  cols_eq : ∀ {i j k : String} {K L : LinearMap F}, A.get? i k = some K → A.get? j k = some L → K.cols = L.cols

namespace WellFormed

theorem empty : (empty : BlockMatrix F).WellFormed where
  occupied := occupied_empty
  cols_eq h := nomatch h

theorem set (h : A.WellFormed) (hcols : ∀ i L, A.get? i col = some L → L.cols = K.cols) :
    (A.set row col K).WellFormed where
  occupied := h.occupied.set row col K
  cols_eq := by
    intro i j k L M hL hM
    rw [get?_set] at hL hM
    split at hL <;> split at hM
    · rw [← Option.some.inj hL, ← Option.some.inj hM]
    · next hi _ =>
      rw [← Option.some.inj hL, hcols j M (hi.2 ▸ hM)]
    · next _ hj =>
      rw [← Option.some.inj hM, hcols i L (hj.2 ▸ hL)]
    · exact h.cols_eq hL hM

theorem erase (h : A.WellFormed) (row col : String) : (A.erase row col).WellFormed where
  occupied := h.occupied.erase row col
  cols_eq := by
    intro i j k L M hL hM
    rw [get?_erase] at hL hM
    split at hL
    · cases hL
    · split at hM
      · cases hM
      · exact h.cols_eq hL hM

theorem share (h : A.WellFormed) (next : ℕ) : (A.share next).1.WellFormed where
  occupied := h.occupied.share next
  cols_eq := by
    intro i j k L M hL hM
    obtain ⟨L', hL', hL⟩ := exists_get?_of_share hL
    obtain ⟨M', hM', hM⟩ := exists_get?_of_share hM
    rw [hL.cols_eq, hM.cols_eq, h.cols_eq hL' hM']

variable [Arith F]

/-- What an insertion that is not refused says of its block. -/
theorem ensures_insertOrAdd (h : A.WellFormed) (row col : String) (K : LinearMap F) :
    Ensures (A.insertOrAdd row col K) fun B => B.WellFormed ∧ (∀ i L, A.get? i col = some L → L.cols = K.cols) ∧
      ∀ L, A.get? row col = some L → L.rows = K.rows := by
  have hcheck : Ensures (checkColumn ((A.column? col).getD ∅) col K) fun _ =>
      ∀ i L, A.get? i col = some L → L.cols = K.cols := by
    intro _ hok i L hL
    obtain ⟨p, hp⟩ := exists_first? hL
    exact (h.cols_eq hL (get?_of_first? hp)).trans (checkColumn_eq_ok_iff.mp hok p hp).2.2
  refine hcheck.bind fun _ hcols => ?_
  cases hA : A.get? row col with
  | none => exact Ensures.pure_iff.mpr ⟨h.set hcols, hcols, fun L hL => nomatch hL⟩
  | some a =>
    refine (LinearMap.ensures_add a K).bind fun P hP => Ensures.pure_iff.mpr ⟨?_, hcols, ?_⟩
    · exact h.set fun i L hL => (h.cols_eq hL hA).trans hP.2.2.symm
    · rintro L ⟨⟩
      exact hP.1.1.symm

end WellFormed

section Insertion
variable [Arith F] {p : BlockMatrix F → Prop}

/-- What holds of a matrix holds after every insertion that is not refused. -/
def KeptByInsertion (p : BlockMatrix F → Prop) : Prop :=
  ∀ A row col K, p A → Ensures (A.insertOrAdd row col K) p

theorem KeptByInsertion.insertAll (hp : KeptByInsertion p) (hA : p A)
    (items : List (String × String × LinearMap F)) : Ensures (A.insertAll items) p :=
  Ensures.foldlM (fun _ B => p B) hA fun _ t _ hB => hp _ t.1 t.2.1 t.2.2 hB

theorem KeptByInsertion.insertInPlace (hp : KeptByInsertion p) (hA : p A) (row col : String) (K : LinearMap F) :
    p (A.insertInPlace row col K).1 := by
  rw [insertInPlace_eq]
  cases hB : A.insertOrAdd row col K with
  | ok B => exact hp A row col K hA B hB
  | error f => exact hA

theorem KeptByInsertion.ends_mul {ε : Type} (hp : KeptByInsertion p) (hempty : p .empty) (A B : BlockMatrix F) :
    (A.mul B : Outcome ε (BlockMatrix F)).Ends p (fun _ => True) fun _ => True := by
  refine Outcome.Ends.foldlM (fun _ C => p C) hempty ?_
  rintro - ⟨⟨i, k, j⟩, a, b⟩ - C hC
  refine Outcome.Ends.report_bind ?_
  refine Outcome.Ends.lift_bind_any fun P => ?_
  exact Outcome.Ends.lift (hp C i j P hC)

theorem WellFormed.keptByInsertion : KeptByInsertion (WellFormed : BlockMatrix F → Prop) :=
  fun _ row col K h => (h.ensures_insertOrAdd row col K).mono fun _ hB => hB.1

end Insertion

/-- The sizes of a block are in range if there is another one in its column: one of them has been compared with the other
or both with a third. -/
def Compared (A : BlockMatrix F) : Prop :=
  ∀ i j k K L, i ≠ j → A.get? i k = some K → A.get? j k = some L → K.Fits

namespace Compared

theorem empty : (empty : BlockMatrix F).Compared := fun _ _ _ _ _ _ h => nomatch h

/-- The first block of a column stands for all of them. -/
theorem set (h : A.Compared) (hfirst : ∀ p, ((A.column? col).getD ∅).first? = some p → p.2.Fits ∧ K.Fits) :
    (A.set row col K).Compared := by
  intro i j k L M hne hL hM
  rw [get?_set] at hL hM
  split at hL
  case isTrue hi =>
    obtain rfl := Option.some.inj hL
    rw [if_neg fun hj => hne (hi.1.trans hj.1.symm), hi.2] at hM
    obtain ⟨p, hp⟩ := exists_first? hM
    exact (hfirst p hp).2
  case isFalse =>
    split at hM
    case isTrue hj =>
      rw [hj.2] at hL
      obtain ⟨p, hp⟩ := exists_first? hL
      by_cases hip : i = p.1
      · have hLp : some L = some p.2 := hL.symm.trans (hip ▸ get?_of_first? hp)
        exact Option.some.inj hLp ▸ (hfirst p hp).1
      · exact h i p.1 col L p.2 hip hL (get?_of_first? hp)
    case isFalse => exact h i j k L M hne hL hM

theorem erase (h : A.Compared) (row col : String) : (A.erase row col).Compared := by
  intro i j k L M hne hL hM
  rw [get?_erase] at hL hM
  split at hL
  · cases hL
  · split at hM
    · cases hM
    · exact h i j k L M hne hL hM

theorem share (h : A.Compared) (next : ℕ) : (A.share next).1.Compared := by
  intro i j k L M hne hL hM
  obtain ⟨L', hL', hL⟩ := exists_get?_of_share hL
  obtain ⟨M', hM', -⟩ := exists_get?_of_share hM
  exact hL.fits_iff.mpr (h i j k L' M' hne hL' hM')

theorem keptByInsertion [Arith F] : KeptByInsertion (Compared : BlockMatrix F → Prop) := by
  intro A row col K h
  refine Ensures.bind (p := fun _ => ∀ p, ((A.column? col).getD ∅).first? = some p → p.2.Fits ∧ K.Fits)
    (fun _ hok p hp => ?_) fun _ hfirst => ?_
  · obtain ⟨hfits, hK, -⟩ := checkColumn_eq_ok_iff.mp hok p hp
    exact ⟨hfits, hK⟩
  · cases A.get? row col with
    | none => exact Ensures.pure_iff.mpr (h.set hfirst)
    | some a =>
      refine Ensures.bind (p := LinearMap.Fits) (fun P hP => LinearMap.fits_of_add_eq_ok hP) fun P hP => ?_
      exact Ensures.pure_iff.mpr (h.set fun p hp => ⟨(hfirst p hp).1, hP⟩)

end Compared

section Reachability
variable [Scalar F]

theorem KeptByInsertion.ends_inverse {p : BlockMatrix F → Prop} (hp : KeptByInsertion p) (hempty : p .empty)
    (A : BlockMatrix F) (eps : F) : (A.inverse eps).Ends p (fun _ => True) fun _ => True := by
  refine Outcome.Ends.lift_bind_any fun m => ?_
  refine Outcome.Ends.lift_bind_any fun n => ?_
  split
  · exact Outcome.Ends.report_bind trivial
  · split
    · refine Outcome.Ends.foldlM (fun _ C => p C) hempty ?_
      rintro - ⟨row, col, a⟩ - C hC
      refine Outcome.Ends.bind (p := fun _ => True)
        (.of_forall (fun _ => trivial) (fun _ => trivial) fun _ => trivial) fun J _ => ?_
      exact Outcome.Ends.lift (hp C col row J hC)
    · exact Outcome.Ends.report_bind trivial

/-- The block matrices that a sequence of operations may hold, whichever of its insertions end in a fault. -/
inductive Reachable : BlockMatrix F → Prop
  | empty : Reachable empty
  | identity {dims : List (String × ℕ)} {I : BlockMatrix F} : identity dims = .ok I → Reachable I
  | insertInPlace {A : BlockMatrix F} (row col : String) (K : LinearMap F) :
    Reachable A → Reachable (A.insertInPlace row col K).1
  | insertOrAdd {A B : BlockMatrix F} {row col : String} {K : LinearMap F} :
    Reachable A → A.insertOrAdd row col K = .ok B → Reachable B
  | erase {A : BlockMatrix F} (row col : String) : Reachable A → Reachable (A.erase row col)
  | share {A : BlockMatrix F} (next : ℕ) : Reachable A → Reachable (A.share next).1
  | scale {A B : BlockMatrix F} {alpha : F} : Reachable A → A.scale alpha = .ok B → Reachable B
  | neg {A B : BlockMatrix F} : Reachable A → A.neg = .ok B → Reachable B
  | transpose {A B : BlockMatrix F} : Reachable A → A.transpose = .ok B → Reachable B
  | inverse {A B : BlockMatrix F} {eps : F} : Reachable A → (A.inverse eps).result = .ok B → Reachable B
  | leftIdentity {A I : BlockMatrix F} : Reachable A → A.leftIdentity = .ok I → Reachable I
  | rightIdentity {A I : BlockMatrix F} : Reachable A → A.rightIdentity = .ok I → Reachable I
  | add {A B C : BlockMatrix F} : Reachable A → Reachable B → A.add B = .ok C → Reachable C
  | sub {A B C : BlockMatrix F} : Reachable A → Reachable B → A.sub B = .ok C → Reachable C
  | mul {ε : Type} {A B C : BlockMatrix F} :
    Reachable A → Reachable B → (A.mul B : Outcome ε (BlockMatrix F)).result = .ok C → Reachable C

/-- Every operation is made of insertions, removals and sharing. -/
theorem Reachable.of_closed {p : BlockMatrix F → Prop} (h : A.Reachable) (hempty : p .empty) (hinsert : KeptByInsertion p)
    (herase : ∀ A row col, p A → p (A.erase row col)) (hshare : ∀ A next, p A → p (A.share next).1) : p A := by
  induction h with
  | empty => exact hempty
  | identity hI => exact hinsert.insertAll hempty _ _ hI
  | insertInPlace row col K _ ih => exact hinsert.insertInPlace ih row col K
  | insertOrAdd _ hB ih => exact hinsert _ _ _ _ ih _ hB
  | erase row col _ ih => exact herase _ row col ih
  | share next _ ih => exact hshare _ next ih
  | scale _ hB => exact hinsert.insertAll hempty _ _ hB
  | neg _ hB => exact hinsert.insertAll hempty _ _ hB
  | transpose _ hB => exact hinsert.insertAll hempty _ _ hB
  | inverse _ hB => exact (hinsert.ends_inverse hempty _ _).of_result_eq_ok hB
  | leftIdentity _ hI =>
    obtain ⟨_, -, hI⟩ := exists_of_bind_eq_ok hI
    obtain ⟨_, -, hI⟩ := exists_of_bind_eq_ok hI
    exact hinsert.insertAll hempty _ _ hI
  | rightIdentity _ hI =>
    obtain ⟨_, -, hI⟩ := exists_of_bind_eq_ok hI
    exact hinsert.insertAll hempty _ _ hI
  | add _ _ hC ihA => exact hinsert.insertAll ihA _ _ hC
  | sub _ _ hC ihA => exact hinsert.insertAll ihA _ _ hC
  | mul _ _ hC => exact (hinsert.ends_mul hempty _ _).of_result_eq_ok hC

theorem Reachable.wellFormed (h : A.Reachable) : A.WellFormed :=
  h.of_closed .empty WellFormed.keptByInsertion (fun _ row col hA => hA.erase row col) fun _ next hA => hA.share next

theorem Reachable.compared (h : A.Reachable) : A.Compared :=
  h.of_closed .empty Compared.keptByInsertion (fun _ row col hA => hA.erase row col) fun _ next hA => hA.share next

omit [Scalar F] in
/-- The sizes that an insertion compares are in range, and so are those of a sum if there is a block at its place. -/
structure InRange (A : BlockMatrix F) (row col : String) (K : LinearMap F) : Prop where
  column : ∀ i L, A.get? i col = some L → L.Fits ∧ K.Fits
  place : ∀ L, A.get? row col = some L → L.Addable K

theorem exists_insertOrAdd_iff (hA : A.Reachable) {row col : String} {K : LinearMap F} :
    (∃ B, A.insertOrAdd row col K = .ok B) ↔ (∀ i L, A.get? i col = some L → L.cols = K.cols) ∧
      (∀ L, A.get? row col = some L → L.rows = K.rows) ∧ A.InRange row col K := by
  constructor
  · rintro ⟨B, hB⟩
    obtain ⟨-, hcols, hrows⟩ := hA.wellFormed.ensures_insertOrAdd row col K B hB
    obtain ⟨⟨⟩, hcheck, hB⟩ := exists_of_bind_eq_ok hB
    refine ⟨hcols, hrows, fun i L hL => ?_, fun L hL => ?_⟩
    · obtain ⟨p, hp⟩ := exists_first? hL
      obtain ⟨hpfits, hK, -⟩ := checkColumn_eq_ok_iff.mp hcheck p hp
      refine ⟨?_, hK⟩
      -- The block is the first one of its column, or it has been compared.
      by_cases hi : i = p.1
      · have hLp : some L = some p.2 := hL.symm.trans (hi ▸ get?_of_first? hp)
        exact Option.some.inj hLp ▸ hpfits
      · exact hA.compared i p.1 col L p.2 hi hL (get?_of_first? hp)
    · simp only [hL] at hB
      obtain ⟨P, hP, -⟩ := exists_of_bind_eq_ok hB
      exact LinearMap.addable_of_add_eq_ok hP
  · rintro ⟨hcols, hrows, hrange⟩
    have hcheck : checkColumn ((A.column? col).getD ∅) col K = .ok () :=
      checkColumn_eq_ok_iff.mpr fun p hp =>
        have hL := get?_of_first? hp
        ⟨(hrange.column _ _ hL).1, (hrange.column _ _ hL).2, hcols _ _ hL⟩
    rw [insertOrAdd, hcheck]
    cases hL : A.get? row col with
    | none => exact ⟨_, rfl⟩
    | some L =>
      obtain ⟨P, hP⟩ := (hrange.place L hL).exists_add_eq_ok ⟨hrows L hL, hcols row L hL⟩ ⟨rfl, rfl⟩
      exact ⟨A.set row col P, congrArg (· >>= fun P => pure (A.set row col P)) hP⟩

/-- A column of a block matrix that operations lead to has a block, and one column count. So an insertion is refused,
unless a size leaves its range, exactly if a block of the column has another column count or the block at its place
another row count, and a refused one leaves the matrix as it was. -/
theorem Reachable.insertion (hA : A.Reachable) :
    (∀ j ∈ A.colKeys, ∃ i, A.contains i j) ∧
    (∀ i j k K L, A.get? i k = some K → A.get? j k = some L → K.cols = L.cols) ∧
    ∀ row col K,
      ((A.insertInPlace row col K).2 ≠ .error .overflow →
        ((∃ f, (A.insertInPlace row col K).2 = .error f) ↔
          (∃ i L, A.get? i col = some L ∧ L.cols ≠ K.cols) ∨ ∃ L, A.get? row col = some L ∧ L.rows ≠ K.rows)) ∧
      ((A.insertInPlace row col K).2 = .ok () ↔ (∀ i L, A.get? i col = some L → L.cols = K.cols) ∧
        (∀ L, A.get? row col = some L → L.rows = K.rows) ∧ A.InRange row col K) ∧
      ((∃ f, (A.insertInPlace row col K).2 = .error f) → (A.insertInPlace row col K).1 = A) := by
  have h := hA.wellFormed
  refine ⟨h.occupied, fun i j k K L => h.cols_eq, fun row col K => ⟨fun hsize => ?_, ?_, ?_⟩⟩
  · rw [snd_insertInPlace] at hsize ⊢
    cases hB : A.insertOrAdd row col K with
    | ok B =>
      obtain ⟨-, hcols, hrows⟩ := h.ensures_insertOrAdd row col K B hB
      refine ⟨fun ⟨f, hf⟩ => (nomatch hf), ?_⟩
      rintro (⟨i, L, hL, hne⟩ | ⟨L, hL, hne⟩)
      · exact absurd (hcols i L hL) hne
      · exact absurd (hrows L hL) hne
    | error f =>
      refine ⟨fun _ => ?_, fun _ => ⟨f, rfl⟩⟩
      by_contra hfits
      push Not at hfits
      have hyields : Yields (A.insertOrAdd row col K) fun _ => True :=
        insertOrAdd_cases hfits.1 (fun _ => trivial) fun a ha =>
          (LinearMap.Sized.yields_add ⟨hfits.2 a ha, hfits.1 row a ha⟩ ⟨rfl, rfl⟩).mono fun _ _ => trivial
      rw [hB, Yields.error_iff] at hyields
      rw [hB, hyields] at hsize
      exact hsize rfl
  · rw [← exists_insertOrAdd_iff hA, snd_insertInPlace]
    cases A.insertOrAdd row col K <;> simp [Except.map]
  · rw [insertInPlace_eq]
    cases A.insertOrAdd row col K with
    | ok B => exact fun ⟨f, hf⟩ => nomatch hf
    | error f => exact fun _ => rfl

/-- Two maps of two columns, and a refused one of three. -/
def patched : BlockMatrix ℚ :=
  ((((BlockMatrix.empty : BlockMatrix ℚ).insertInPlace "a" "k" (.ofScalar 2 5)).1.insertInPlace "b" "k"
    (.ofEntries 3 2 fun i j => i - j)).1.insertInPlace "c" "k" (.ofScalar 3 7)).1

theorem patched_insertion : patched.Reachable ∧
    (patched.insertInPlace "b" "k" (.ofScalar 2 1)).2 = .error (.sumShape (3, 2) (2, 2)) ∧
    (∃ L, patched.get? "b" "k" = some L ∧ L.rows ≠ 2) ∧ (patched.insertInPlace "b" "k" (.ofScalar 2 1)).1 = patched ∧
    (patched.insertInPlace "a" "k" (.ofScalar 2 1)).2 = .ok () ∧ patched.InRange "a" "k" (.ofScalar 2 1) ∧
    (∀ i L, patched.get? i "k" = some L → L.cols = 2) ∧ ∀ L, patched.get? "a" "k" = some L → L.rows = 2 := by
  have hreachable : patched.Reachable := .insertInPlace _ _ _ (.insertInPlace _ _ _ (.insertInPlace _ _ _ .empty))
  obtain ⟨-, -, hinsertion⟩ := hreachable.insertion
  have hcols : ∀ i L, patched.get? i "k" = some L → L.cols = 2 := fun i L hL =>
    (show ∀ t ∈ patched.blocks, t.2.1 = "k" → t.2.2.cols = 2 by decide +kernel) _ (mem_blocks.mpr hL) rfl
  obtain ⟨hrefused, -, hkept⟩ := hinsertion "b" "k" (.ofScalar 2 1)
  have hfault : (patched.insertInPlace "b" "k" (.ofScalar 2 1)).2 = .error (.sumShape (3, 2) (2, 2)) := by
    decide +kernel
  have hmismatch := (hrefused (by rw [hfault]; decide)).mp ⟨_, hfault⟩
  obtain ⟨L, hL, hrows⟩ := hmismatch.resolve_left fun ⟨i, L, hL, hne⟩ => hne (hcols i L hL)
  obtain ⟨-, haccepted, -⟩ := hinsertion "a" "k" (.ofScalar 2 1)
  have hok : (patched.insertInPlace "a" "k" (.ofScalar 2 1)).2 = .ok () := by decide +kernel
  obtain ⟨-, hrows', hrange⟩ := haccepted.mp hok
  exact ⟨hreachable, hfault, ⟨L, hL, hrows⟩, hkept ⟨_, hfault⟩, hok, hrange, hcols, hrows'⟩

end Reachability

end BlockMatrix

end BlockElimination
