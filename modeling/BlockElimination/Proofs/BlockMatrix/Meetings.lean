import BlockElimination.Proofs.BlockMatrix.Arithmetic

/-!
# Products without sums

Where every place of a product is met by one pair of blocks at most, nothing is added up: the block there is the product
of that pair as the maps multiply it, with its representation and its numbers.
-/
namespace BlockElimination.BlockMatrix

variable {F : Type} {A B : BlockMatrix F} {m l n : String → ℕ}

theorem map_fst_meetings (A B : BlockMatrix F) : (meetings A B).map Prod.fst =
    B.blocks.flatMap fun t => ((A.column? t.1).elim [] Keyed.keys).map fun i => (i, t.1, t.2.1) := by
  rw [meetings, List.map_flatMap]
  refine List.flatMap_congr fun t _ => ?_
  obtain ⟨k, j, b⟩ := t
  cases h : A.column? k <;> simp [h, Keyed.keys]

/-- No pair of blocks meets twice. -/
theorem nodup_meetings (A B : BlockMatrix F) : ((meetings A B).map Prod.fst).Nodup := by
  rw [map_fst_meetings]
  have hplaces : B.blocks.Pairwise fun s t => (s.1, s.2.1) ≠ (t.1, t.2.1) := List.pairwise_map.mp (nodup_places B)
  refine List.pairwise_flatMap.mpr ⟨fun t _ => ?_, hplaces.imp fun hne p hp q hq e => ?_⟩
  · refine List.Nodup.map (fun _ _ e => congrArg Prod.fst e) ?_
    cases A.column? t.1 with
    | none => exact List.nodup_nil
    | some column => exact column.nodup_keys
  · obtain ⟨i, -, rfl⟩ := List.mem_map.mp hp
    obtain ⟨i', -, rfl⟩ := List.mem_map.mp hq
    exact hne (congrArg Prod.snd e)

/-- Every place of the product of `A` and `B` is met by one pair of blocks at most. -/
def MeetOnce (A B : BlockMatrix F) : Prop :=
  ∀ i j k k', A.contains i k → B.contains k j → A.contains i k' → B.contains k' j → k = k'

variable [Arith F]

/-- The blocks of `C` are the products of the blocks of `A` and `B` that meet. -/
structure HasProducts (A B C : BlockMatrix F) : Prop where
  exists_product : ∀ {i k j a b}, A.get? i k = some a → B.get? k j = some b →
    ∃ P, C.get? i j = some P ∧ a.mul b = .ok P
  exists_factors : ∀ {i j}, C.contains i j → ∃ k, A.contains i k ∧ B.contains k j

/-- The blocks of `C` are the products of the pairs that have been multiplied. -/
structure Collects (pairs : List ((String × String × String) × LinearMap F × LinearMap F)) (C : BlockMatrix F) :
    Prop where
  exists_product : ∀ t ∈ pairs, ∃ P, C.get? t.1.1 t.1.2.2 = some P ∧ t.2.1.mul t.2.2 = .ok P
  exists_pair : ∀ {i j}, C.contains i j → ∃ t ∈ pairs, t.1.1 = i ∧ t.1.2.2 = j

theorem Collects.set {pairs : List ((String × String × String) × LinearMap F × LinearMap F)} {C : BlockMatrix F}
    {i k j : String} {a b P : LinearMap F} (h : Collects pairs C) (hfresh : ¬C.contains i j) (hP : a.mul b = .ok P) :
    Collects (pairs ++ [((i, k, j), a, b)]) (C.set i j P) where
  exists_product t ht := by
    rw [get?_set]
    rcases List.mem_append.mp ht with ht | ht
    · obtain ⟨Q, hQ, hmul⟩ := h.exists_product t ht
      refine ⟨Q, ?_, hmul⟩
      rw [if_neg, hQ]
      exact fun hplace => hfresh (contains_iff.mpr ⟨Q, hplace.1 ▸ hplace.2 ▸ hQ⟩)
    · obtain rfl := List.mem_singleton.mp ht
      exact ⟨P, if_pos ⟨rfl, rfl⟩, hP⟩
  exists_pair hc := by
    rcases contains_set.mp hc with ⟨rfl, rfl⟩ | hc
    · exact ⟨_, List.mem_append_right _ List.mem_cons_self, rfl, rfl⟩
    · obtain ⟨t, ht, hplace⟩ := h.exists_pair hc
      exact ⟨t, List.mem_append_left _ ht, hplace⟩

theorem Collects.hasProducts {C : BlockMatrix F} (h : Collects (meetings A B) C) : HasProducts A B C where
  exists_product ha hb := h.exists_product ((_, _, _), _, _) (mem_meetings.mpr ⟨ha, hb⟩)
  exists_factors hc := by
    obtain ⟨⟨⟨i, k, j⟩, a, b⟩, ht, rfl, rfl⟩ := h.exists_pair hc
    obtain ⟨ha, hb⟩ := mem_meetings.mp ht
    exact ⟨k, contains_iff.mpr ⟨a, ha⟩, contains_iff.mpr ⟨b, hb⟩⟩

omit [Arith F] in
/-- The pair that is multiplied next. -/
theorem get?_of_meetings_eq {done todo : List ((String × String × String) × LinearMap F × LinearMap F)} {i k j : String}
    {a b : LinearMap F} (heq : meetings A B = done ++ ((i, k, j), a, b) :: todo) :
    A.get? i k = some a ∧ B.get? k j = some b :=
  mem_meetings.mp (show ((i, k, j), a, b) ∈ meetings A B from heq ▸ by simp)

/-- Where places are met once, the next pair comes to a place without a block: an earlier pair there would be the
same. -/
theorem Collects.not_contains {C : BlockMatrix F}
    {done todo : List ((String × String × String) × LinearMap F × LinearMap F)} {i k j : String} {a b : LinearMap F}
    (h : Collects done C) (honce : MeetOnce A B) (heq : meetings A B = done ++ ((i, k, j), a, b) :: todo) :
    ¬C.contains i j := by
  intro hc
  obtain ⟨ha, hb⟩ := get?_of_meetings_eq heq
  obtain ⟨⟨⟨i', k', j'⟩, a', b'⟩, hdone, hi, hj⟩ := h.exists_pair hc
  dsimp only at hi hj
  subst hi hj
  obtain ⟨ha', hb'⟩ := mem_meetings.mp (heq ▸ List.mem_append_left _ hdone)
  have hk : k = k' := honce i' j' k k' (contains_iff.mpr ⟨a, ha⟩) (contains_iff.mpr ⟨b, hb⟩)
    (contains_iff.mpr ⟨a', ha'⟩) (contains_iff.mpr ⟨b', hb'⟩)
  subst hk
  have hnodup : ((done ++ ((i', k, j'), a, b) :: todo).map Prod.fst).Nodup := heq ▸ nodup_meetings A B
  exact not_mem_map_of_nodup hnodup (List.mem_map.mpr ⟨_, hdone, rfl⟩)

theorem Consistent.yields_hasProducts {ε : Type} {q : ε → Prop} (hA : A.Consistent m l) (hB : B.Consistent l n)
    (honce : MeetOnce A B) : (A.mul B).Yields (fun C => C.Consistent m n ∧ HasProducts A B C) q := by
  refine Outcome.Yields.mono (Outcome.Ends.foldlM_of_append
    (fun done (C : BlockMatrix F) => C.Consistent m n ∧ Collects done C) ⟨.empty m n, ⟨by simp, fun hc => ?_⟩⟩ ?_)
    (fun C hC => ⟨hC.1, hC.2.hasProducts⟩) fun _ h => h
  · exact nomatch contains_iff.mp hc
  · rintro done ⟨⟨i, k, j⟩, a, b⟩ todo heq C ⟨hC, hcollects⟩
    obtain ⟨ha, hb⟩ := get?_of_meetings_eq heq
    have hfresh : ¬C.contains i j := hcollects.not_contains honce heq
    have hproduct := ((hA i k a ha).yields_mul (hB k j b hb)).and fun _ h => h
    refine Outcome.Yields.report_bind (Outcome.Yields.lift_bind hproduct fun P ⟨hP, hmul⟩ => Outcome.Yields.lift ?_)
    apply hC.insertOrAdd_cases hP
    · exact fun _ => ⟨hC.set hP, hcollects.set hfresh hmul⟩
    · exact fun c hc => absurd (contains_iff.mpr ⟨c, hc⟩) hfresh

/-- A block for a free place is put there, if the blocks of the column have its column count and all sizes are in
range. In an empty column nothing is asked of it. -/
theorem insertOrAdd_fresh {row col : String} {K : LinearMap F} (hfresh : ¬A.contains row col)
    (hcolumn : ∀ i L, A.get? i col = some L → L.Fits ∧ K.Fits ∧ L.cols = K.cols) :
    A.insertOrAdd row col K = .ok (A.set row col K) := by
  have hcheck : checkColumn ((A.column? col).getD ∅) col K = .ok () :=
    checkColumn_eq_ok_iff.mpr fun p hp => hcolumn p.1 p.2 (get?_of_first? hp)
  rw [insertOrAdd, hcheck, get?_eq_none hfresh]
  rfl

/-- The blocks are in range, and those of a column have the column count that `n` gives. -/
def FitsColumns (A : BlockMatrix F) (n : String → ℕ) : Prop := ∀ i j K, A.get? i j = some K → K.Fits ∧ K.cols = n j

omit [Arith F] in
theorem FitsColumns.set (h : A.FitsColumns n) {row col : String} {K : LinearMap F} (hK : K.Fits)
    (hcols : K.cols = n col) : (A.set row col K).FitsColumns n := by
  intro i j L hL
  rw [get?_set] at hL
  split at hL
  case isTrue hplace =>
    obtain rfl := Option.some.inj hL
    exact ⟨hK, hplace.2 ▸ hcols⟩
  case isFalse => exact h i j L hL

theorem FitsColumns.insertOrAdd_fresh (h : A.FitsColumns n) {row col : String} {K : LinearMap F}
    (hfresh : ¬A.contains row col) (hK : K.Fits) (hcols : K.cols = n col) :
    A.insertOrAdd row col K = .ok (A.set row col K) := by
  refine BlockMatrix.insertOrAdd_fresh hfresh fun i L hL => ?_
  obtain ⟨hLfits, hLcols⟩ := h i col L hL
  exact ⟨hLfits, hK, hLcols.trans hcols.symm⟩

/-- Where all products are there and in range, so is the product of the matrices. -/
theorem MeetOnce.exists_hasProducts {ε : Type} (honce : MeetOnce A B)
    (hproduct : ∀ {i k j a b}, A.get? i k = some a → B.get? k j = some b →
      ∃ P, a.mul b = .ok P ∧ P.Fits ∧ P.cols = n j) :
    ∃ C, (A.mul B : Outcome ε (BlockMatrix F)).result = .ok C ∧ C.Occupied ∧ HasProducts A B C := by
  have hends : (A.mul B : Outcome ε (BlockMatrix F)).Ends
      (fun C => C.Occupied ∧ C.FitsColumns n ∧ Collects (meetings A B) C) (fun _ => False) fun _ => False := by
    have hstart : (empty : BlockMatrix F).FitsColumns n := fun _ _ _ h => nomatch h
    refine Outcome.Ends.foldlM_of_append
      (fun done (C : BlockMatrix F) => C.Occupied ∧ C.FitsColumns n ∧ Collects done C)
      ⟨occupied_empty, hstart, ⟨by simp, fun hc => nomatch contains_iff.mp hc⟩⟩ ?_
    rintro done ⟨⟨i, k, j⟩, a, b⟩ todo heq C ⟨hC, hblocks, hcollects⟩
    obtain ⟨ha, hb⟩ := get?_of_meetings_eq heq
    obtain ⟨P, hP, hfits, hcols⟩ := hproduct ha hb
    have hfresh : ¬C.contains i j := hcollects.not_contains honce heq
    refine Outcome.Ends.report_bind (Outcome.Ends.lift_bind_eq hP ?_)
    rw [hblocks.insertOrAdd_fresh hfresh hfits hcols]
    exact ⟨hC.set i j P, hblocks.set hfits hcols, hcollects.set hfresh hP⟩
  obtain ⟨C, hC, hoccupied, -, hcollects⟩ := hends.exists_of_forall_not (fun _ => id) fun _ => id
  exact ⟨C, hC, hoccupied, hcollects.hasProducts⟩

end BlockElimination.BlockMatrix
