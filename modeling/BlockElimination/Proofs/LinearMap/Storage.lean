import BlockElimination.LinearMap.Equality
import BlockElimination.Proofs.LinearMap.Marks
import BlockElimination.Proofs.LinearMap.Product

/-!
# Maps in storage

A program keeps maps, and a map that is kept has a mark on every payload. A mark is given once and stands for one
payload from then on: what is computed from kept maps carries their marks or none, and only a payload without a mark is
given a new one. So any two maps that a program keeps agree on what a mark stands for, however they share payloads.
-/
namespace BlockElimination

/-- What a mark stands for: numbers, and the shape in which they are stored. -/
inductive Payload (F : Type)
  | dense (rows cols : ℕ) (array : Array F)
  | diag (d : Array F)
  | scalar (n : ℕ) (alpha : F)

namespace Stored

variable {α F : Type} {a b : Stored α} {store store' : List (Payload F)} {p : Payload F}

theorem sameStorage_iff : a.sameStorage b = true ↔ ∃ i, a.mark = some i ∧ b.mark = some i := by
  unfold sameStorage
  cases ha : a.mark with
  | none => simp
  | some i =>
    cases hb : b.mark with
    | none => simp
    | some j =>
      simp only [beq_iff_eq, Option.some.injEq]
      constructor
      · intro h
        exact ⟨i, rfl, h.symm⟩
      · rintro ⟨k, hi, hj⟩
        exact hi.trans hj.symm

theorem sameStorage_self (h : a.mark.isSome) : a.sameStorage a = true := by
  obtain ⟨i, hi⟩ := Option.isSome_iff_exists.mp h
  exact sameStorage_iff.mpr ⟨i, hi, hi⟩

theorem sameStorage_symm (h : a.sameStorage b = true) : b.sameStorage a = true := by
  obtain ⟨i, ha, hb⟩ := sameStorage_iff.mp h
  exact sameStorage_iff.mpr ⟨i, hb, ha⟩

theorem sameStorage_trans {c : Stored α} (hab : a.sameStorage b = true) (hbc : b.sameStorage c = true) :
    a.sameStorage c = true := by
  obtain ⟨i, ha, hb⟩ := sameStorage_iff.mp hab
  obtain ⟨j, hb', hc⟩ := sameStorage_iff.mp hbc
  obtain rfl : i = j := Option.some.inj (hb.symm.trans hb')
  exact sameStorage_iff.mpr ⟨i, ha, hc⟩

/-- The payload is kept as `p`: its mark, if it has one, stands for that in the store. -/
def KeptAs (store : List (Payload F)) (a : Stored α) (p : Payload F) : Prop :=
  ∀ i, a.mark = some i → store[i]? = some p

theorem KeptAs.mono (h : a.KeptAs store p) (hle : store <+: store') : a.KeptAs store' p := by
  intro i hi
  obtain ⟨later, rfl⟩ := hle
  have hp := h i hi
  rw [List.getElem?_append_left (List.getElem?_eq_some_iff.mp hp).1]
  exact hp

/-- Payloads in one storage are kept as the same. -/
theorem KeptAs.eq_of_sameStorage {q : Payload F} (ha : a.KeptAs store p) (hb : b.KeptAs store q)
    (h : a.sameStorage b = true) : p = q := by
  obtain ⟨i, hai, hbi⟩ := sameStorage_iff.mp h
  exact Option.some.inj ((ha i hai).symm.trans (hb i hbi))

/-- The next free mark is the length of the store. A payload that takes it is added there. -/
theorem KeptAs.exists_share (h : a.KeptAs store p) : ∃ store', store <+: store' ∧
    (a.share store.length).1.KeptAs store' p ∧ (a.share store.length).2 = store'.length := by
  cases hmark : a.mark with
  | some i =>
    rw [share_of_mark hmark]
    exact ⟨store, List.prefix_refl store, h, rfl⟩
  | none =>
    refine ⟨store ++ [p], List.prefix_append store [p], ?_, ?_⟩
    · intro i hi
      simp only [share, hmark, Option.some.injEq] at hi
      rw [← hi]
      exact List.getElem?_concat_length
    · simp [share, hmark]

end Stored

namespace LinearMap

variable {F : Type} {K L : LinearMap F} {store store' : List (Payload F)}

/-- Every payload of the map lives in some storage. -/
def InStorage : LinearMap F → Prop
  | dense d => d.array.mark.isSome
  | kron a b => a.InStorage ∧ b.InStorage
  | diag d => d.mark.isSome
  | scalar _ alpha => alpha.mark.isSome

theorem inStorage_share (K : LinearMap F) (next : ℕ) : (K.share next).1.InStorage := by
  induction K generalizing next with
  | dense d => exact d.array.isSome_mark_share next
  | kron a b iha ihb => exact ⟨iha next, ihb (a.share next).2⟩
  | diag d => exact d.isSome_mark_share next
  | scalar n alpha => exact alpha.isSome_mark_share next

/-- What is in storage is equal to itself, even where its numbers are not. -/
theorem beq_self [Arith F] (h : K.InStorage) : (K == K) = true := by
  induction K with
  | dense d =>
    show d.beq d = true
    simp [Dense.beq, Stored.sameStorage_self h]
  | kron a b iha ihb =>
    show (a.beq a && b.beq b) = true
    exact Bool.and_eq_true_iff.mpr ⟨iha h.1, ihb h.2⟩
  | diag d =>
    show (d.sameStorage d || d.value == d.value) = true
    rw [Stored.sameStorage_self h, Bool.true_or]
  | scalar n alpha =>
    show (n == n && (alpha.sameStorage alpha || alpha.value == alpha.value)) = true
    rw [Stored.sameStorage_self h, BEq.rfl, Bool.true_or, Bool.true_and]

/-- Whatever has a mark is what the mark stands for. -/
def KeptIn (store : List (Payload F)) : LinearMap F → Prop
  | dense d => d.array.KeptAs store (.dense d.rows d.cols d.array.value)
  | kron a b => a.KeptIn store ∧ b.KeptIn store
  | diag d => d.KeptAs store (.diag d.value)
  | scalar n alpha => alpha.KeptAs store (.scalar n alpha.value)

theorem KeptIn.mono (h : K.KeptIn store) (hle : store <+: store') : K.KeptIn store' := by
  induction K with
  | dense d => exact Stored.KeptAs.mono h hle
  | kron a b iha ihb => exact ⟨iha h.1, ihb h.2⟩
  | diag d => exact Stored.KeptAs.mono h hle
  | scalar n alpha => exact Stored.KeptAs.mono h hle

/-- What has no marks agrees with every store. -/
theorem keptIn_unmarked (store : List (Payload F)) (K : LinearMap F) : K.unmarked.KeptIn store := by
  induction K with
  | dense d => intro i hi; cases hi
  | kron a b iha ihb => exact ⟨iha, ihb⟩
  | diag d => intro i hi; cases hi
  | scalar n alpha => intro i hi; cases hi

theorem keptIn_of_unmarked_eq (h : K.unmarked = K) : K.KeptIn store := h ▸ keptIn_unmarked store K

/-- Keeping a map only adds to the store. -/
theorem KeptIn.exists_share (h : K.KeptIn store) : ∃ store', store <+: store' ∧
    (K.share store.length).1.KeptIn store' ∧ (K.share store.length).2 = store'.length := by
  induction K generalizing store with
  | dense d =>
    obtain ⟨store', hle, hkept, hnext⟩ := Stored.KeptAs.exists_share h
    refine ⟨store', hle, ?_, hnext⟩
    show (d.array.share store.length).1.KeptAs store' (.dense d.rows d.cols (d.array.share store.length).1.value)
    rw [Stored.value_share]
    exact hkept
  | kron a b iha ihb =>
    obtain ⟨left, hleft, ha, hnext⟩ := iha h.1
    obtain ⟨right, hright, hb, hnext'⟩ := ihb (h.2.mono hleft)
    rw [← hnext] at hb hnext'
    exact ⟨right, hleft.trans hright, ⟨ha.mono hright, hb⟩, hnext'⟩
  | diag d =>
    obtain ⟨store', hle, hkept, hnext⟩ := Stored.KeptAs.exists_share h
    refine ⟨store', hle, ?_, hnext⟩
    show (d.share store.length).1.KeptAs store' (.diag (d.share store.length).1.value)
    rw [Stored.value_share]
    exact hkept
  | scalar n alpha =>
    obtain ⟨store', hle, hkept, hnext⟩ := Stored.KeptAs.exists_share h
    refine ⟨store', hle, ?_, hnext⟩
    show (alpha.share store.length).1.KeptAs store' (.scalar n (alpha.share store.length).1.value)
    rw [Stored.value_share]
    exact hkept

theorem KeptIn.transpose (h : K.KeptIn store) : K.transpose.KeptIn store := by
  induction K with
  | dense d => exact h
  | kron a b iha ihb => exact ⟨iha h.1, ihb h.2⟩
  | diag d => exact h
  | scalar n alpha => exact h

section Operations
variable [Scalar F]

theorem KeptIn.scale (h : K.KeptIn store) (alpha : F) : (K.scale alpha).KeptIn store := by
  induction K with
  | kron a b iha _ => exact ⟨iha h.1, h.2⟩
  | _ => exact keptIn_of_unmarked_eq rfl

theorem ensures_keptIn_denseProduct (K L : LinearMap F) : Ensures (K.denseProduct L) (KeptIn store) :=
  (ensures_unmarked_denseProduct K L).mono fun _ => keptIn_of_unmarked_eq

/-- A product, given those of the factors where two Kronecker products meet. -/
theorem KeptIn.ensures_mul_of_factors (hK : K.KeptIn store) (hL : L.KeptIn store)
    (factors : ∀ a b c d, K = kron a b → L = kron c d →
      Ensures (a.mul c) (KeptIn store) ∧ Ensures (b.mul d) (KeptIn store)) : Ensures (K.mul L) (KeptIn store) := by
  intro P hP
  have hfit : L.rows = K.cols := by
    by_contra hne
    rcases mul_of_cols_ne_rows (Ne.symm hne) with hfault | hfault
    · cases hP.symm.trans hfault
    · cases hP.symm.trans hfault
  have hsized : K.Sized K.rows K.cols ∧ L.Sized K.cols L.cols := ⟨⟨rfl, rfl⟩, hfit, rfl⟩
  have hproduct : Yields (K.mul L) (KeptIn store) := by
    apply hsized.1.mul_cases hsized.2
    · intro s _ _
      exact hL.scale s.value
    · intro s _ _
      exact hK.scale s.value
    · intro u v _ _ _ _ _
      exact keptIn_of_unmarked_eq rfl
    · intro a b c d ha hc hchains
      obtain ⟨hac, hbd⟩ := factors a b c d ha hc
      have hleft := (Sized.yields_mul (K := a) (L := c) ⟨rfl, rfl⟩ ⟨hchains.1.symm, rfl⟩).and hac
      have hright := (Sized.yields_mul (K := b) (L := d) ⟨rfl, rfl⟩ ⟨hchains.2.symm, rfl⟩).and hbd
      exact hleft.bind fun P hP => hright.bind fun Q hQ => Yields.pure_iff.mpr ⟨hP.2, hQ.2⟩
    · intro _
      have hkept : Ensures (K.denseProduct L) (KeptIn store) := ensures_keptIn_denseProduct K L
      exact ((hsized.1.yields_denseProduct hsized.2).and hkept).mono fun P hP => hP.2
  exact hproduct.of_eq_ok hP

theorem KeptIn.ensures_mul (hK : K.KeptIn store) (hL : L.KeptIn store) : Ensures (K.mul L) (KeptIn store) := by
  induction K generalizing L with
  | kron a b iha ihb =>
    apply hK.ensures_mul_of_factors hL
    intro a' b' c d ha hc
    cases ha
    subst hc
    exact ⟨iha hK.1 hL.1, ihb hK.2 hL.2⟩
  | _ => exact hK.ensures_mul_of_factors hL fun _ _ _ _ h => nomatch h

theorem ensures_keptIn_add (K L : LinearMap F) : Ensures (K.add L) (KeptIn store) := by
  intro P hP
  have hL := (ensures_add K L P hP).1
  have hsum : Yields (K.add L) (KeptIn store) := by
    apply Sized.add_cases ⟨rfl, rfl⟩ hL
    · intro a b _ _ _
      exact keptIn_of_unmarked_eq rfl
    · intro u v _ _ _ _
      exact keptIn_of_unmarked_eq rfl
    · intro _
      exact keptIn_of_unmarked_eq rfl
  exact hsum.of_eq_ok hP

/-- What an expression over kept maps makes: anew, from the factors of a map, or by an operation. -/
inductive Made (kept : List (LinearMap F)) : LinearMap F → Prop
  | kept {K : LinearMap F} : K ∈ kept → Made kept K
  | dense {m n : ℕ} {a : Array F} {K : LinearMap F} : ofArray m n a = .ok K → Made kept K
  | diag (d : Array F) : Made kept (ofDiagonal d)
  | scalar (n : ℕ) (alpha : F) : Made kept (ofScalar n alpha)
  | kron {K L : LinearMap F} : Made kept K → Made kept L → Made kept (kron K L)
  | left {K L : LinearMap F} : Made kept (.kron K L) → Made kept K
  | right {K L : LinearMap F} : Made kept (.kron K L) → Made kept L
  | transpose {K : LinearMap F} : Made kept K → Made kept K.transpose
  | scale {K : LinearMap F} (alpha : F) : Made kept K → Made kept (K.scale alpha)
  | neg {K : LinearMap F} : Made kept K → Made kept K.neg
  | inverse {K J : LinearMap F} {eps : F} : Made kept K → (K.inverse eps).result = .ok J → Made kept J
  | mul {K L P : LinearMap F} : Made kept K → Made kept L → K.mul L = .ok P → Made kept P
  | add {K L P : LinearMap F} : Made kept K → Made kept L → K.add L = .ok P → Made kept P
  | sub {K L P : LinearMap F} : Made kept K → Made kept L → K.sub L = .ok P → Made kept P

theorem Made.ofEntries {kept : List (LinearMap F)} {m n : ℕ} (entry : ℕ → ℕ → F) (hsize : m * n < Size.bound) :
    Made kept (ofEntries m n entry) :=
  .dense (ofArray_tabulate entry hsize)

theorem Made.keptIn {kept : List (LinearMap F)} (h : Made kept K) (hkept : ∀ L ∈ kept, L.KeptIn store) :
    K.KeptIn store := by
  induction h with
  | kept hK => exact hkept _ hK
  | dense hK => exact keptIn_of_unmarked_eq (ensures_unmarked_ofArray _ _ _ _ hK)
  | diag d => exact keptIn_of_unmarked_eq rfl
  | scalar n alpha => exact keptIn_of_unmarked_eq rfl
  | kron _ _ ihK ihL => exact ⟨ihK, ihL⟩
  | left _ ih => exact ih.1
  | right _ ih => exact ih.2
  | transpose _ ih => exact ih.transpose
  | scale alpha _ ih => exact ih.scale alpha
  | neg _ ih => exact ih.scale (-1)
  | inverse _ hJ _ => exact keptIn_of_unmarked_eq (unmarked_of_inverse hJ)
  | mul _ _ hP ihK ihL => exact ihK.ensures_mul ihL _ hP
  | add _ _ hP _ _ => exact ensures_keptIn_add _ _ _ hP
  | sub _ _ hP _ _ => exact ensures_keptIn_add _ _ _ hP

/-- The maps that a program may have kept, alone or as blocks of matrices, with the next free mark. Each has been made
from those kept before, and all that it shares with them it still shares. -/
inductive Held : List (LinearMap F) → ℕ → Prop
  | start : Held [] 0
  | keep {kept : List (LinearMap F)} {next : ℕ} {K : LinearMap F} :
    Held kept next → Made kept K → Held ((K.share next).1 :: kept) (K.share next).2

/-- Kept maps live in one store, which has a payload for every mark in use. -/
theorem Held.exists_store {kept : List (LinearMap F)} {next : ℕ} (h : Held kept next) :
    ∃ store : List (Payload F), store.length = next ∧ ∀ K ∈ kept, K.KeptIn store ∧ K.InStorage := by
  induction h with
  | start => exact ⟨[], rfl, fun K hK => nomatch hK⟩
  | @keep kept next K _ hK ih =>
    obtain ⟨store, rfl, hkept⟩ := ih
    obtain ⟨store', hle, hshared, hnext⟩ := (hK.keptIn fun L hL => (hkept L hL).1).exists_share
    refine ⟨store', hnext.symm, ?_⟩
    intro L hL
    rcases List.mem_cons.mp hL with rfl | hL
    · exact ⟨hshared, K.inStorage_share store.length⟩
    · exact ⟨(hkept L hL).1.mono hle, (hkept L hL).2⟩

end Operations

end LinearMap

end BlockElimination
