import BlockElimination.Proofs.BlockMatrix.Blocks
import BlockElimination.Proofs.LinearMap.Sums

/-!
# The order of insertions

An insertion looks at the first block of a column, which depends on what came before, and a block gathers its summands
in the order in which they come. Where the shapes agree neither can be told from the result: insertions at different
places pass each other in every arithmetic, and over a ring those at one place do too.
-/
namespace BlockElimination

section Reordering
variable {α κ : Type} {R : α → α → Prop} {l l' : List α}

/-- Neighbours that `R` allows to pass each other have changed places, one pair after another. -/
inductive Reorders (R : α → α → Prop) : List α → List α → Prop
  | nil : Reorders R [] []
  | cons (a : α) {l l' : List α} : Reorders R l l' → Reorders R (a :: l) (a :: l')
  | swap {a b : α} (l : List α) : R a b → Reorders R (a :: b :: l) (b :: a :: l)
  | trans {l l' l'' : List α} : Reorders R l l' → Reorders R l' l'' → Reorders R l l''

namespace Reorders

theorem refl (l : List α) : Reorders R l l := by
  induction l with
  | nil => exact nil
  | cons a l ih => exact cons a ih

theorem perm (h : Reorders R l l') : l.Perm l' := by
  induction h with
  | nil => exact .nil
  | cons a _ ih => exact .cons a ih
  | swap l _ => exact .swap _ _ l
  | trans _ _ ih ih' => exact ih.trans ih'

theorem of_perm (hR : ∀ a b, R a b) (h : l.Perm l') : Reorders R l l' := by
  induction h with
  | nil => exact nil
  | cons a _ ih => exact cons a ih
  | swap a b l => exact swap l (hR b a)
  | trans _ _ ih ih' => exact ih.trans ih'

theorem move {a : α} {pre : List α} (h : ∀ b ∈ pre, R a b) (post : List α) :
    Reorders R (a :: (pre ++ post)) (pre ++ a :: post) := by
  induction pre with
  | nil => exact refl _
  | cons b pre ih =>
    have hswap : Reorders R (a :: b :: (pre ++ post)) (b :: a :: (pre ++ post)) := swap _ (h b List.mem_cons_self)
    exact hswap.trans (cons b (ih fun c hc => h c (List.mem_cons_of_mem b hc)))

/-- Lists with the same elements in the same order at every key differ by exchanges of different keys. -/
theorem of_filter [DecidableEq κ] {key : α → κ}
    (h : ∀ k, l.filter (fun a => key a = k) = l'.filter fun a => key a = k) :
    Reorders (fun a b => key a ≠ key b) l l' := by
  induction l generalizing l' with
  | nil =>
    cases l' with
    | nil => exact nil
    | cons b l' => simpa using h (key b)
  | cons a l ih =>
    have hfirst := (h (key a)).symm
    rw [List.filter_cons_of_pos (by simp), List.filter_eq_cons_iff] at hfirst
    obtain ⟨pre, post, rfl, hpre, -, hpost⟩ := hfirst
    have hpre' : ∀ b ∈ pre, key b ≠ key a := fun b hb => by simpa using hpre b hb
    refine (cons a (ih fun k => ?_)).trans (move (fun b hb => (hpre' b hb).symm) post)
    have hk := h k
    rw [List.filter_append, List.filter_cons, List.filter_cons] at hk
    rw [List.filter_append]
    by_cases hak : key a = k
    · subst hak
      rw [hpost, List.filter_eq_nil_iff.mpr fun b hb => hpre b hb, List.nil_append]
    · simpa [hak] using hk

end Reorders

end Reordering

namespace Keyed

variable {α : Type} {m : Keyed α} {k : String} {v : α} {p : String × α}

theorem first?_insert (h : (m.insert k v).first? = some p) : p = (k, v) ∨ m.first? = some p := by
  obtain ⟨entries, hsorted⟩ := m
  cases entries with
  | nil => exact .inl (Option.some.inj h).symm
  | cons q rest =>
    simp only [first?, insert, insertEntry] at h ⊢
    split at h
    · exact .inl (Option.some.inj h).symm
    · split at h
      · exact .inl (Option.some.inj h).symm
      · exact .inr h

theorem exists_first?_insert (m : Keyed α) (k : String) (v : α) : ∃ p, (m.insert k v).first? = some p := by
  have hk : (k, v) ∈ (m.insert k v).entries := (mem_entries_iff _ k v).mpr (by simp)
  exact ⟨_, List.head?_eq_some_head (List.ne_nil_of_mem hk)⟩

end Keyed

namespace BlockMatrix

variable {F : Type} {A B C : BlockMatrix F} {m : String → String → ℕ} {n : String → ℕ} {r r' c c' : String}
  {K L P Q : LinearMap F}

theorem ext_column? (h : ∀ j, A.column? j = B.column? j) : A = B := congrArg BlockMatrix.mk (Keyed.ext_get? h)

theorem column?_set (A : BlockMatrix F) (r c : String) (K : LinearMap F) (j : String) :
    (A.set r c K).column? j = if j = c then some (((A.column? c).getD ∅).insert r K) else A.column? j := by
  simp [set, column?]

theorem set_set_self (A : BlockMatrix F) (r c : String) (K L : LinearMap F) :
    (A.set r c K).set r c L = A.set r c L := by
  refine ext_column? fun j => ?_
  by_cases hj : j = c
  · simp only [column?_set, hj, if_true, Option.getD_some, Option.some.injEq]
    exact Keyed.ext_get? fun k => by simp only [Keyed.get?_insert]; split <;> rfl
  · simp [column?_set, hj]

theorem set_comm (hne : (r, c) ≠ (r', c')) (A : BlockMatrix F) (K L : LinearMap F) :
    (A.set r c K).set r' c' L = (A.set r' c' L).set r c K := by
  refine ext_column? fun j => ?_
  by_cases hc : c = c'
  · subst hc
    have hr : r ≠ r' := fun e => hne (by rw [e])
    by_cases hj : j = c
    · simp only [column?_set, hj, if_true, Option.getD_some, Option.some.injEq]
      exact Keyed.ext_get? fun k => by simp only [Keyed.get?_insert]; grind
    · simp [column?_set, hj]
  · by_cases hj : j = c
    · simp [column?_set, hj, hc]
    · by_cases hj' : j = c' <;> simp [column?_set, hj', Ne.symm hc, hj]

/-- The block at a place has the row count of the place and the column count of its column. -/
def Placed (A : BlockMatrix F) (m : String → String → ℕ) (n : String → ℕ) : Prop :=
  ∀ i j K, A.get? i j = some K → K.Sized (m i j) (n j)

theorem Placed.set (h : A.Placed m n) (hK : K.Sized (m r c) (n c)) : (A.set r c K).Placed m n := by
  intro i j L hL
  rw [get?_set] at hL
  split at hL
  case isTrue hplace =>
    obtain ⟨rfl, rfl⟩ := hplace
    exact Option.some.inj hL ▸ hK
  case isFalse => exact h i j L hL

/-- No size that is compared when the block comes into the column is out of range. -/
def Admits (A : BlockMatrix F) (c : String) (K : LinearMap F) : Prop :=
  ∀ p, ((A.column? c).getD ∅).first? = some p → p.2.Fits ∧ K.Fits

theorem Admits.of_set (h : A.Admits c K) (h' : (A.set r c P).Admits c' L) : A.Admits c' L := by
  intro p hp
  by_cases hc : c' = c
  · subst hc
    obtain ⟨q, hq⟩ := Keyed.exists_first?_insert ((A.column? c').getD ∅) r P
    exact ⟨(h p hp).1, (h' q (by simpa [column?_set] using hq)).2⟩
  · exact h' p (by simpa [column?_set, hc] using hp)

/-- A block that has been admitted before another is admitted after it. -/
theorem Admits.set (h : A.Admits c K) (h' : (A.set r c P).Admits c' L) (hP : P.Fits → K.Fits) (hQ : L.Fits → Q.Fits) :
    (A.set r' c' Q).Admits c K := by
  intro p hp
  by_cases hc : c = c'
  · subst hc
    rw [column?_set, if_pos rfl, Option.getD_some] at hp
    rcases Keyed.first?_insert hp with rfl | hp
    · obtain ⟨q, hq⟩ := Keyed.exists_first?_insert ((A.column? c).getD ∅) r P
      obtain ⟨hqf, hL⟩ := h' q (by simpa [column?_set] using hq)
      refine ⟨hQ hL, ?_⟩
      rcases Keyed.first?_insert hq with rfl | hq
      · exact hP hqf
      · exact (h q hq).2
    · exact h p hp
  · exact h p (by simpa [column?_set, hc] using hp)

section Arith
variable [Arith F]

/-- What a block makes of what is at its place. -/
def joined (o : Option (LinearMap F)) (K : LinearMap F) : Except Fault (LinearMap F) :=
  match o with
  | some a => a.add K
  | none => .ok K

theorem fits_of_joined {o : Option (LinearMap F)} (h : joined o K = .ok P) (hP : P.Fits) : K.Fits := by
  cases o with
  | none => exact Except.ok.inj h ▸ hP
  | some a => exact (LinearMap.addable_of_add_eq_ok h).fits_right

theorem fits_joined {o : Option (LinearMap F)} (h : joined o K = .ok P) (hK : K.Fits) : P.Fits := by
  cases o with
  | none => exact Except.ok.inj h ▸ hK
  | some a => exact LinearMap.fits_of_add_eq_ok h

theorem Placed.insertOrAdd_eq_ok_iff (h : A.Placed m n) (hK : K.Sized (m r c) (n c)) :
    A.insertOrAdd r c K = .ok B ↔ A.Admits c K ∧ ∃ P, joined (A.get? r c) K = .ok P ∧ A.set r c P = B := by
  have hcheck : checkColumn ((A.column? c).getD ∅) c K = .ok () ↔ A.Admits c K := by
    rw [checkColumn_eq_ok_iff]
    refine forall₂_congr fun p hp => ?_
    rw [(h p.1 c p.2 (get?_of_first? hp)).2, hK.2]
    tauto
  rw [← hcheck]
  constructor
  · intro hB
    obtain ⟨⟨⟩, hok, hB⟩ := exists_of_bind_eq_ok hB
    refine ⟨hok, ?_⟩
    cases hget : A.get? r c with
    | none =>
      simp only [hget] at hB
      exact ⟨K, rfl, Except.ok.inj hB⟩
    | some a =>
      simp only [hget] at hB
      obtain ⟨P, hP, hB⟩ := exists_of_bind_eq_ok hB
      exact ⟨P, hP, Except.ok.inj hB⟩
  · rintro ⟨hok, P, hP, rfl⟩
    cases hget : A.get? r c with
    | none =>
      rw [hget] at hP
      obtain rfl := Except.ok.inj hP
      simp [insertOrAdd, hok, hget, bind, Except.bind, pure, Except.pure]
    | some a =>
      rw [hget] at hP
      have hadd : a.add K = .ok P := hP
      simp [insertOrAdd, hok, hget, hadd, bind, Except.bind, pure, Except.pure]

theorem Placed.yields_insertOrAdd (h : A.Placed m n) (hK : K.Sized (m r c) (n c)) :
    Yields (A.insertOrAdd r c K) (·.Placed m n) := by
  apply insertOrAdd_cases fun i L hL => (h i c L hL).2.trans hK.2.symm
  · exact fun _ => h.set hK
  · exact fun a ha => ((h r c a ha).yields_add hK).mono fun P hP => h.set hP

theorem insertAll_cons (A : BlockMatrix F) (t : String × String × LinearMap F)
    (items : List (String × String × LinearMap F)) :
    A.insertAll (t :: items) = A.insertOrAdd t.1 t.2.1 t.2.2 >>= (·.insertAll items) :=
  List.foldlM_cons

theorem insertAll_pair_eq_ok_iff {s t : String × String × LinearMap F} : A.insertAll [s, t] = .ok C ↔
    ∃ B, A.insertOrAdd s.1 s.2.1 s.2.2 = .ok B ∧ B.insertOrAdd t.1 t.2.1 t.2.2 = .ok C := by
  constructor
  · intro h
    obtain ⟨B, hB, h⟩ := exists_of_bind_eq_ok (insertAll_cons A s [t] ▸ h)
    obtain ⟨D, hD, h⟩ := exists_of_bind_eq_ok (insertAll_cons B t [] ▸ h)
    exact ⟨B, hB, Except.ok.inj h ▸ hD⟩
  · rintro ⟨B, hB, hC⟩
    rw [insertAll_cons, hB]
    change B.insertAll [t] = _
    rw [insertAll_cons, hC]
    rfl

/-- Insertions at one place pass each other if the sums do, and insertions at different places always do. -/
theorem Placed.insert_swap (hA : A.Placed m n) (hK : K.Sized (m r c) (n c)) (hL : L.Sized (m r' c') (n c'))
    (hjoin : (r, c) = (r', c') →
      (joined (A.get? r c) K >>= (·.add L)) = (joined (A.get? r c) L >>= (·.add K)))
    (h : A.insertAll [(r, c, K), (r', c', L)] = .ok C) : A.insertAll [(r', c', L), (r, c, K)] = .ok C := by
  obtain ⟨B, hB, hC⟩ := insertAll_pair_eq_ok_iff.mp h
  obtain ⟨hadmits, P, hP, rfl⟩ := (hA.insertOrAdd_eq_ok_iff hK).mp hB
  have hAP : (A.set r c P).Placed m n := (hA.yields_insertOrAdd hK).of_eq_ok hB
  obtain ⟨hadmits', Q, hQ, rfl⟩ := (hAP.insertOrAdd_eq_ok_iff hL).mp hC
  have hL' : A.Admits c' L := hadmits.of_set hadmits'
  have hK' : ∀ o P', joined o L = .ok P' → (A.set r' c' P').Admits c K := fun o P' hP' =>
    hadmits.set hadmits' (fits_of_joined hP) (fits_joined hP')
  by_cases hplace : (r, c) = (r', c')
  · obtain ⟨P', hP', hQ'⟩ : ∃ P', joined (A.get? r c) L = .ok P' ∧ P'.add K = .ok Q := by
      refine exists_of_bind_eq_ok ?_
      rw [← hjoin hplace, hP]
      obtain ⟨rfl, rfl⟩ := Prod.mk.inj hplace
      rwa [get?_set, if_pos ⟨rfl, rfl⟩] at hQ
    obtain ⟨rfl, rfl⟩ := Prod.mk.inj hplace
    have hB' := (hA.insertOrAdd_eq_ok_iff hL).mpr ⟨hL', P', hP', rfl⟩
    refine insertAll_pair_eq_ok_iff.mpr ⟨_, hB', ?_⟩
    refine (((hA.yields_insertOrAdd hL).of_eq_ok hB').insertOrAdd_eq_ok_iff hK).mpr ⟨hK' _ _ hP', Q, ?_, ?_⟩
    · rw [get?_set, if_pos ⟨rfl, rfl⟩]
      exact hQ'
    · rw [set_set_self, set_set_self]
  · rw [get?_set, if_neg fun e => hplace (Prod.ext e.1.symm e.2.symm)] at hQ
    have hB' := (hA.insertOrAdd_eq_ok_iff hL).mpr ⟨hL', Q, hQ, rfl⟩
    refine insertAll_pair_eq_ok_iff.mpr ⟨_, hB', ?_⟩
    refine (((hA.yields_insertOrAdd hL).of_eq_ok hB').insertOrAdd_eq_ok_iff hK).mpr ⟨hK' _ _ hQ, P, ?_, ?_⟩
    · rwa [get?_set, if_neg fun e => hplace (Prod.ext e.1 e.2)]
    · exact (set_comm hplace A P Q).symm

/-- The items have the sizes of their places. -/
def SizedItems (m : String → String → ℕ) (n : String → ℕ) (items : List (String × String × LinearMap F)) : Prop :=
  ∀ t ∈ items, t.2.2.Sized (m t.1 t.2.1) (n t.2.1)

theorem Placed.yields_insertAll (hA : A.Placed m n) {items : List (String × String × LinearMap F)}
    (h : SizedItems m n items) : Yields (A.insertAll items) (·.Placed m n) :=
  Yields.foldlM (fun _ (B : BlockMatrix F) => B.Placed m n) hA fun _ t ht _ hB => hB.yields_insertOrAdd (h t ht)

theorem Placed.insertAll_reorders (hA : A.Placed m n)
    {R : String × String × LinearMap F → String × String × LinearMap F → Prop}
    {items items' : List (String × String × LinearMap F)} (h : Reorders R items items')
    (hitems : SizedItems m n items)
    (hR : ∀ s t, R s t → SizedItems m n [s, t] → ∀ B : BlockMatrix F, B.Placed m n →
      B.insertAll [s, t] = B.insertAll [t, s]) :
    A.insertAll items = A.insertAll items' := by
  induction h generalizing A with
  | nil => rfl
  | cons t _ ih =>
    obtain ⟨ht, hitems⟩ := List.forall_mem_cons.mp hitems
    have hinsert := hA.yields_insertOrAdd ht
    rw [insertAll_cons, insertAll_cons]
    cases hB : A.insertOrAdd t.1 t.2.1 t.2.2 with
    | ok B => exact ih (hinsert.of_eq_ok hB) hitems
    | error f => rfl
  | @swap s t items hst =>
    have hsplit : ∀ s t, A.insertAll (s :: t :: items) = A.insertAll [s, t] >>= (·.insertAll items) := fun s t =>
      List.foldlM_append (l := [s, t])
    have hpair : SizedItems m n [s, t] := fun u hu => hitems u (List.mem_append_left items hu)
    rw [hsplit, hsplit, hR s t hst hpair A hA]
  | trans h _ ih ih' => exact (ih hA hitems).trans (ih' hA fun t ht => hitems t (h.perm.mem_iff.mpr ht))

theorem Placed.insertAll_pair_comm (hA : A.Placed m n) {s t : String × String × LinearMap F}
    (hitems : SizedItems m n [s, t])
    (hjoin : (s.1, s.2.1) = (t.1, t.2.1) →
      (joined (A.get? s.1 s.2.1) s.2.2 >>= (·.add t.2.2)) = (joined (A.get? s.1 s.2.1) t.2.2 >>= (·.add s.2.2))) :
    A.insertAll [s, t] = A.insertAll [t, s] := by
  have hs : s.2.2.Sized (m s.1 s.2.1) (n s.2.1) := hitems s (by simp)
  have ht : t.2.2.Sized (m t.1 t.2.1) (n t.2.1) := hitems t (by simp)
  have hflipped : SizedItems m n [t, s] := fun u hu => hitems u (List.mem_pair.mpr (List.mem_pair.mp hu).symm)
  refine (hA.yields_insertAll hitems).eq_of_ok_iff (hA.yields_insertAll hflipped) fun C => ?_
  refine ⟨hA.insert_swap hs ht hjoin, ?_⟩
  refine hA.insert_swap ht hs fun e => ?_
  obtain ⟨hrow, hcol⟩ := Prod.mk.inj e
  rw [hrow, hcol]
  exact (hjoin e.symm).symm

end Arith

theorem joined_comm [CommRing F] [DecidableEq F] {o : Option (LinearMap F)} {k l : ℕ}
    (ho : ∀ a, o = some a → a.Sized k l) (hK : K.Sized k l) (hL : L.Sized k l) :
    (joined o K >>= (·.add L)) = (joined o L >>= (·.add K)) := by
  cases o with
  | none => exact LinearMap.add_comm_of_sized hK hL
  | some a => exact LinearMap.add_right_comm_of_sized (ho a rfl) hK hL

/-- Items of one column have one column count, and items of one place also one row count. -/
def Uniform (items : List (String × String × LinearMap F)) : Prop :=
  ∀ s ∈ items, ∀ t ∈ items, s.2.1 = t.2.1 → s.2.2.cols = t.2.2.cols ∧ (s.1 = t.1 → s.2.2.rows = t.2.2.rows)

instance (items : List (String × String × LinearMap F)) : Decidable (Uniform items) := by
  unfold Uniform
  infer_instance

theorem Uniform.exists_sizedItems {items : List (String × String × LinearMap F)} (h : Uniform items) :
    ∃ m n, SizedItems m n items := by
  classical
  refine ⟨fun i j => if h : ∃ t ∈ items, t.1 = i ∧ t.2.1 = j then h.choose.2.2.rows else 0,
    fun j => if h : ∃ t ∈ items, t.2.1 = j then h.choose.2.2.cols else 0, fun t ht => ⟨?_, ?_⟩⟩
  · have hplace : ∃ u ∈ items, u.1 = t.1 ∧ u.2.1 = t.2.1 := ⟨t, ht, rfl, rfl⟩
    obtain ⟨hu, hrow, hcol⟩ := hplace.choose_spec
    dsimp only
    rw [dif_pos hplace, (h t ht _ hu hcol.symm).2 hrow.symm]
  · have hcol : ∃ u ∈ items, u.2.1 = t.2.1 := ⟨t, ht, rfl⟩
    obtain ⟨hu, he⟩ := hcol.choose_spec
    dsimp only
    rw [dif_pos hcol, (h t ht _ hu he.symm).1]

theorem placed_empty (m : String → String → ℕ) (n : String → ℕ) : (empty : BlockMatrix F).Placed m n :=
  fun _ _ _ h => nomatch h

theorem Uniform.eq_overflow [Arith F] {items : List (String × String × LinearMap F)} (h : Uniform items) {f : Fault}
    (hf : empty.insertAll items = .error f) : f = .overflow := by
  obtain ⟨m, n, hitems⟩ := h.exists_sizedItems
  have hyields := (placed_empty m n).yields_insertAll hitems
  rwa [hf, Yields.error_iff] at hyields

/-- The items of one place, in their order. -/
def itemsAt (items : List (String × String × LinearMap F)) (i j : String) : List (String × String × LinearMap F) :=
  items.filter fun t => (t.1, t.2.1) = (i, j)

/-- Where the shapes of the items agree, the insertions only fail for a size out of range, and their order has no part
in the result, its representations and its numbers: over a ring it is the same for all orders, and in any arithmetic
for those that keep the order at each place. -/
theorem insertAll_order (F G : Type) [CommRing F] [DecidableEq F] [Arith G] :
    (∀ items items' : List (String × String × LinearMap F), Uniform items → items.Perm items' →
      (∀ f, empty.insertAll items = .error f → f = .overflow) ∧ empty.insertAll items' = empty.insertAll items) ∧
    ∀ items items' : List (String × String × LinearMap G), Uniform items →
      (∀ i j, itemsAt items' i j = itemsAt items i j) →
      (∀ f, empty.insertAll items = .error f → f = .overflow) ∧ empty.insertAll items' = empty.insertAll items := by
  constructor
  · intro items items' huniform hperm
    obtain ⟨m, n, hitems⟩ := huniform.exists_sizedItems
    have hreorders : Reorders (fun _ _ => True) items items' := .of_perm (fun _ _ => trivial) hperm
    refine ⟨fun f hf => huniform.eq_overflow hf, Eq.symm ?_⟩
    refine (placed_empty m n).insertAll_reorders hreorders hitems fun s t _ hpair B hB => ?_
    refine hB.insertAll_pair_comm hpair fun e => ?_
    obtain ⟨hrow, hcol⟩ := Prod.mk.inj e
    refine joined_comm (hB _ _) (hpair s (by simp)) ?_
    rw [hrow, hcol]
    exact hpair t (by simp)
  · intro items items' huniform horder
    obtain ⟨m, n, hitems⟩ := huniform.exists_sizedItems
    have hreorders : Reorders (fun s t => (s.1, s.2.1) ≠ (t.1, t.2.1)) items items' :=
      .of_filter fun k => (horder k.1 k.2).symm
    refine ⟨fun f hf => huniform.eq_overflow hf, Eq.symm ?_⟩
    refine (placed_empty m n).insertAll_reorders hreorders hitems fun s t hne hpair B hB => ?_
    exact hB.insertAll_pair_comm hpair fun e => absurd e hne

/-- Three maps of one place, two of them stored as diagonals, and a Kronecker product of its own. -/
def summands (F : Type) [One F] [Add F] : List (String × String × LinearMap F) :=
  [("a", "k", .ofScalar 2 1), ("a", "k", .ofEntries 2 2 fun i _ => if i = 0 then 1 else 1 + 1),
    ("b", "k", .kron (.ofScalar 1 1) (.ofEntries 3 2 fun _ _ => 1)), ("a", "k", .ofDiagonal #[1, 1 + 1])]

theorem summands_order :
    (∃ A, empty.insertAll (summands ℤ) = .ok A ∧ empty.insertAll (summands ℤ).reverse = .ok A) ∧
    empty.insertAll ((summands Float).filter (·.1 = "b") ++ (summands Float).filter (·.1 = "a")) =
      empty.insertAll (summands Float) := by
  obtain ⟨hexact, hany⟩ := insertAll_order ℤ Float
  obtain ⟨A, hA⟩ := exists_eq_ok (show (empty.insertAll (summands ℤ)).toBool = true by decide +kernel)
  have hreverse := (hexact (summands ℤ) _ (by decide) (List.reverse_perm _).symm).2
  refine ⟨⟨A, hA, hreverse.trans hA⟩, (hany (summands Float) _ (by decide) fun i j => ?_).2⟩
  rcases eq_or_ne i "a" with rfl | ha
  · simp [itemsAt, summands, List.filter_cons]
  · simp [itemsAt, summands, List.filter_cons, ha.symm]

end BlockMatrix

end BlockElimination
