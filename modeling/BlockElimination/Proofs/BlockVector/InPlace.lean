import BlockElimination.Proofs.BlockVector

/-!
# Sums in place

`u + α v` in place goes through the names of `v` in order, so it may have changed some segments when a length that does
not fit ends it. A name is reached once, and what is read there is what `u` held at first. The sum is therefore known
name by name: before the first name whose lengths differ it is complete, and from there on nothing has changed.
-/
namespace BlockElimination.BlockVector

variable {F : Type} [Arith F] {u v : BlockVector F} {k : String}

/-- What a name holds after the sum, from what `u` and `v` hold there. -/
def combined (alpha : F) : Option (Array F) → Option (Array F) → Option (Array F)
  | some s, some t => some (tabulate s.size fun i => coord s i + alpha * coord t i)
  | none, some t => some (tabulate t.size fun i => alpha * coord t i)
  | held, none => held

/-- The segments that both vectors have at a name are of one length. -/
def AgreeAt (u v : BlockVector F) (k : String) : Prop :=
  ∀ s t, u.get? k = some s → v.get? k = some t → s.size = t.size

omit [Arith F] in
theorem mem_keys_iff_isSome : k ∈ v.keys ↔ (v.get? k).isSome := mem_keys

theorem isSome_combined (alpha : F) (s t : Option (Array F)) :
    (combined alpha s t).isSome = (s.isSome || t.isSome) := by
  cases s <;> cases t <;> rfl

/-- One entry of `v` is added to what `u` holds at its name, if the lengths agree. -/
theorem accumulateEntries_cons (alpha : F) (entries : List (String × Array F)) {t : Array F}
    (h : ∀ s, u.get? k = some s → s.size = t.size) :
    ∃ w, accumulateEntries alpha ((k, t) :: entries) u = accumulateEntries alpha entries w ∧
      ∀ j, w.get? j = if j = k then combined alpha (u.get? k) (some t) else u.get? j := by
  cases hget : u.get? k with
  | some s =>
    refine ⟨⟨u.segments.insert k (Kernel.accumulate alpha t s)⟩, ?_, fun j => get?_insert⟩
    rw [accumulateEntries, hget]
    exact if_pos (h s hget)
  | none =>
    refine ⟨⟨u.segments.insert k (Kernel.scale alpha t)⟩, ?_, fun j => ?_⟩
    · rw [accumulateEntries, hget]
    · rw [get?_insert, Kernel.scale_eq_tabulate]
      rfl

/-- Entries of distinct names whose lengths agree are all added, and the sum goes on behind them. -/
theorem accumulateEntries_append (alpha : F) {before : List (String × Array F)}
    (hsorted : before.Pairwise fun a b => a.1 < b.1)
    (h : ∀ p ∈ before, ∀ s, u.get? p.1 = some s → s.size = p.2.size) (after : List (String × Array F)) :
    ∃ w, accumulateEntries alpha (before ++ after) u = accumulateEntries alpha after w ∧
      ∀ j, w.get? j = combined alpha (u.get? j) (Keyed.lookup j before) := by
  induction before generalizing u with
  | nil =>
    refine ⟨u, rfl, fun j => ?_⟩
    cases hget : u.get? j <;> rfl
  | cons p before ih =>
    obtain ⟨key, t⟩ := p
    obtain ⟨hless, hrest⟩ := List.pairwise_cons.mp hsorted
    obtain ⟨u', hfirst, hget'⟩ := accumulateEntries_cons alpha (before ++ after) (h (key, t) List.mem_cons_self)
    -- The names that are still to come are not the one that has just been written.
    have hne : ∀ q ∈ before, q.1 ≠ key := fun q hq e => String.lt_irrefl _ (e ▸ hless q hq)
    have hagree : ∀ q ∈ before, ∀ s, u'.get? q.1 = some s → s.size = q.2.size := by
      intro q hq s hs
      rw [hget', if_neg (hne q hq)] at hs
      exact h q (List.mem_cons_of_mem _ hq) s hs
    obtain ⟨w, hw, hget⟩ := ih hrest hagree
    refine ⟨w, hfirst.trans hw, fun j => ?_⟩
    rw [hget, hget', Keyed.lookup]
    by_cases hj : j = key
    · subst hj
      have hnone : Keyed.lookup j before = none := by
        rw [Option.eq_none_iff_forall_ne_some]
        intro s hs
        exact hne (j, s) ((Keyed.mem_iff_lookup_eq_some hrest).mpr hs) rfl
      rw [if_pos rfl, if_pos rfl, hnone]
      cases u.get? j <;> rfl
    · rw [if_neg hj, if_neg hj]

/-- Of entries in order, those before one of them are those of lesser names. -/
theorem lookup_before {α : Type} {before after : List (String × α)} {j : String} {t : α}
    (hsorted : (before ++ (j, t) :: after).Pairwise fun a b => a.1 < b.1) (k : String) :
    Keyed.lookup k before = if k < j then Keyed.lookup k (before ++ (j, t) :: after) else none := by
  obtain ⟨hbefore, hcons, hless⟩ := List.pairwise_append.mp hsorted
  have hafter := (List.pairwise_cons.mp hcons).1
  refine Option.ext fun s => ?_
  rw [← Keyed.mem_iff_lookup_eq_some hbefore]
  split
  case isTrue hk =>
    rw [← Keyed.mem_iff_lookup_eq_some hsorted, List.mem_append, List.mem_cons]
    refine ⟨.inl, fun h => h.resolve_right ?_⟩
    rintro (heq | hmem)
    · exact absurd (congrArg Prod.fst heq) hk.ne
    · exact absurd (String.lt_trans hk (hafter _ hmem)) (String.lt_irrefl k)
  case isFalse hk =>
    refine iff_of_false (fun hmem => hk ?_) (by simp)
    exact hless _ hmem _ List.mem_cons_self

omit [Arith F] in
/-- The first entry of `v` whose length differs from what `u` holds at its name. -/
theorem exists_first_disagreement (h : ¬∀ k, AgreeAt u v k) :
    ∃ before j t after s, v.segments.entries = before ++ (j, t) :: after ∧ u.get? j = some s ∧ s.size ≠ t.size ∧
      ∀ p ∈ before, ∀ s, u.get? p.1 = some s → s.size = p.2.size := by
  cases hfind : v.segments.entries.find? fun p => !(u.get? p.1).all fun s => decide (s.size = p.2.size) with
  | some p =>
    obtain ⟨hp, before, after, heq, hbefore⟩ := List.find?_eq_some_iff_append.mp hfind
    have hfound : ∃ s, u.get? p.1 = some s ∧ s.size ≠ p.2.size := by simpa [Option.all_eq_false] using hp
    obtain ⟨s, hget, hne⟩ := hfound
    exact ⟨before, p.1, p.2, after, s, heq, hget, hne, fun q hq => by simpa [Option.all_eq_true] using hbefore q hq⟩
  | none =>
    refine absurd (fun k s t hs ht => ?_) h
    have hall : ∀ s, u.get? k = some s → s.size = t.size := by
      simpa [Option.all_eq_true] using List.find?_eq_none.mp hfind (k, t) (mem_entries.mpr ht)
    exact hall s hs

/-- How a sum in place ends. Where all lengths agree it adds up everything and adds no other name. Otherwise it is
refused at the first name where they do not, with the sum complete at the names before it and `u` unchanged at all
others. -/
theorem accumulate_outcome (alpha : F) (u v : BlockVector F) :
    ((∀ k, AgreeAt u v k) → (accumulate alpha u v).2 = .ok () ∧
      (∀ k, (accumulate alpha u v).1.get? k = combined alpha (u.get? k) (v.get? k)) ∧
      ∀ k, k ∈ (accumulate alpha u v).1.keys ↔ k ∈ u.keys ∨ k ∈ v.keys) ∧
    ((¬∀ k, AgreeAt u v k) → ∃ j s t, u.get? j = some s ∧ v.get? j = some t ∧ s.size ≠ t.size ∧
      (∀ k < j, AgreeAt u v k) ∧ (accumulate alpha u v).2 = .error (.segmentLength t.size j s.size) ∧
      (∀ k, (accumulate alpha u v).1.get? k = if k < j then combined alpha (u.get? k) (v.get? k) else u.get? k) ∧
      ∀ k, k ∈ (accumulate alpha u v).1.keys ↔ k ∈ u.keys ∨ k ∈ v.keys ∧ k < j) := by
  constructor
  · intro hagree
    obtain ⟨w, hw, hget⟩ := accumulateEntries_append alpha v.segments.sorted
      (fun p hp s hs => hagree p.1 s p.2 hs (mem_entries.mp hp)) []
    rw [List.append_nil] at hw
    have hsum : accumulate alpha u v = (w, .ok ()) := hw
    have hvalue : ∀ k, w.get? k = combined alpha (u.get? k) (v.get? k) := hget
    rw [hsum]
    refine ⟨rfl, hvalue, fun k => ?_⟩
    rw [mem_keys_iff_isSome, hvalue, isSome_combined, Bool.or_eq_true, mem_keys_iff_isSome, mem_keys_iff_isSome]
  · intro hnot
    obtain ⟨before, j, t, after, s, hentries, hs, hne, hbefore⟩ := exists_first_disagreement hnot
    have hsorted := v.segments.sorted
    rw [hentries] at hsorted
    -- The entries that are added before the sum is refused are those of the names before `j`.
    have hprefix := lookup_before hsorted
    rw [← hentries] at hprefix
    obtain ⟨w, hw, hget⟩ := accumulateEntries_append alpha (List.pairwise_append.mp hsorted).1 hbefore
      ((j, t) :: after)
    have hvalue : ∀ k, w.get? k = if k < j then combined alpha (u.get? k) (v.get? k) else u.get? k := by
      intro k
      rw [hget, hprefix]
      split
      · rfl
      · cases u.get? k <;> rfl
    have hkept : w.get? j = some s := by rw [hvalue, if_neg (String.lt_irrefl j), hs]
    have hsum : accumulate alpha u v = (w, .error (.segmentLength t.size j s.size)) := by
      rw [accumulate, hentries, hw, accumulateEntries, hkept]
      exact if_neg hne
    have hvj : v.get? j = some t := mem_entries.mp (hentries ▸ by simp)
    rw [hsum]
    refine ⟨j, s, t, hs, hvj, hne, fun k hk s' t' hs' ht' => ?_, rfl, hvalue, fun k => ?_⟩
    · have hmem : (k, t') ∈ before := by
        rw [Keyed.mem_iff_lookup_eq_some (List.pairwise_append.mp hsorted).1, hprefix, if_pos hk]
        exact ht'
      exact hbefore (k, t') hmem s' hs'
    · rw [mem_keys_iff_isSome, hvalue, mem_keys_iff_isSome, mem_keys_iff_isSome]
      by_cases hk : k < j
      · rw [if_pos hk, isSome_combined, Bool.or_eq_true, and_iff_left hk]
      · rw [if_neg hk, or_iff_left fun h => hk h.2]

/-- A vector with segments `1, 2, …` of the given lengths. -/
def ramps (lengths : List (String × ℕ)) : BlockVector ℚ :=
  ⟨lengths.foldl (fun segments p => segments.insert p.1 (tabulate p.2 fun i => i + 1)) ∅⟩

/-- A sum that reaches a name of either vector alone, and one that is refused at the second of three names. -/
theorem ramps_sums :
    (accumulate 1 (ramps [("a", 1), ("b", 2), ("d", 1)]) (ramps [("a", 1), ("b", 2), ("c", 3)])).2 = .ok () ∧
    ∃ j s t, (ramps [("a", 1), ("b", 2), ("d", 1)]).get? j = some s ∧
      (ramps [("a", 1), ("b", 3), ("c", 3)]).get? j = some t ∧ s.size ≠ t.size ∧
      (accumulate (-1) (ramps [("a", 1), ("b", 2), ("d", 1)]) (ramps [("a", 1), ("b", 3), ("c", 3)])).2 =
        .error (.segmentLength t.size j s.size) := by
  have hagree : ∀ k, AgreeAt (ramps [("a", 1), ("b", 2), ("d", 1)]) (ramps [("a", 1), ("b", 2), ("c", 3)]) k := by
    have hentries : ∀ p ∈ (ramps [("a", 1), ("b", 2), ("d", 1)]).segments.entries,
        ∀ t, (ramps [("a", 1), ("b", 2), ("c", 3)]).get? p.1 = some t → p.2.size = t.size := by
      decide +kernel
    exact fun k s t hs ht => hentries (k, s) (mem_entries.mpr hs) t ht
  have hdiffer : ¬∀ k, AgreeAt (ramps [("a", 1), ("b", 2), ("d", 1)]) (ramps [("a", 1), ("b", 3), ("c", 3)]) k :=
    fun h => absurd (h "b" #[1, 2] #[1, 2, 3] (by decide +kernel) (by decide +kernel)) (by decide)
  obtain ⟨j, s, t, hs, ht, hne, -, herror, -, -⟩ := (accumulate_outcome (-1) _ _).2 hdiffer
  exact ⟨((accumulate_outcome 1 _ _).1 hagree).1, j, s, t, hs, ht, hne, herror⟩

end BlockElimination.BlockVector
