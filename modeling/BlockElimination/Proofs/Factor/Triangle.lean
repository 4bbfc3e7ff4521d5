import BlockElimination.Proofs.Factor.FillPath
import BlockElimination.Proofs.Factor.Mirrored

/-!
# The triangle that is read

In the order of elimination, a column is read on its diagonal and below. What stands above is updated all the same, and
its kinds and sizes have a part in the choice of pivots, but its entries go nowhere: two runs on matrices that are alike
below make the same choices and the same factor. On the diagonal there is more to ask. A dense block is inverted from
the lower triangle of its array, so that a block and a copy of it that is stored the other way round have the same
inverse only if they are symmetric.
-/
namespace BlockElimination.Factor

open BlockMatrix

section Run
variable {F : Type} [Scalar F] {par : FactorParameters F} {order : List String} {s s' : State F}

/-- A run with this order reads the same of both blocks. -/
structure SameRead (order : List String) (i j : String) (K K' : LinearMap F) : Prop where
  diagonal : i = j → K.SamePivot K'
  below : Precedes order j i → K.Alike K'

theorem SameRead.alike {i j : String} {K K' : LinearMap F} (h : SameRead order i j K K')
    (hij : i = j ∨ Precedes order j i) : K.Alike K' :=
  hij.elim (fun heq => (h.diagonal heq).alike) h.below

theorem sumClosed_sameRead : Agrees.SumClosed (SameRead (F := F) order) := by
  intro i j K K' L L' P P' hK hL hP hP'
  have heq : i = j ∨ Precedes order j i → P = P' := fun hij =>
    Except.ok.inj (hP.symm.trans (((hK.alike hij).add_eq (hL.alike hij)).symm.trans hP'))
  exact ⟨fun hij => heq (.inl hij) ▸ .refl P, fun hij => heq (.inr hij) ▸ .refl P⟩

/-- What an update takes off leaves both runs with what they read. -/
theorem SameRead.of_alikeWith {i j : String} {K K' : LinearMap F}
    (h : AlikeWith UprightDiagonal UprightDiagonal i j K K') (alpha : F) :
    SameRead order i j (K.scale alpha) (K'.scale alpha) where
  diagonal hij := .of_upright (h.alike.scale alpha) (LinearMap.upright_scale (h.left hij) alpha)
    (LinearMap.upright_scale (h.right hij) alpha)
  below _ := h.alike.scale alpha

/-- The parts of the factor so far have the same contents, and the same can be read of what is left. -/
structure SameState (order : List String) (s s' : State F) : Prop where
  rest : Agrees (SameRead order) s.rest s'.rest
  lower : s.lower.SameContents s'.lower
  diagInv_eq : s'.diagInv = s.diagInv
  order_eq : s'.order = s.order
  dims_eq : s'.dims = s.dims

/-- One elimination, where the column of the chosen name is on and below the diagonal. -/
theorem SameState.mirrors_step (h : SameState order s s')
    (hcolumn : ∀ key fill, (nextPivot par.rule s.rest).result = .ok (key, fill) →
      ∀ i, s.rest.contains i key → i = key ∨ Precedes order key i) :
    (step par s).Mirrors (step par s') (SameState order) := by
  obtain ⟨rest, lower, diagInv, order', dims⟩ := s
  obtain ⟨rest', lower', _, _, _⟩ := s'
  obtain ⟨hrest, hlower, rfl, rfl, rfl⟩ := h
  refine (mirrors_nextPivot par.rule hrest).bind_of_result ?_
  rintro ⟨key, fill⟩ _ hchosen rfl
  have hread : ∀ K K' : LinearMap F, SameRead order key key K K' → K.SamePivot K' := fun K K' hK => hK.diagonal rfl
  have hbelow : Agrees (fun _ j (K K' : LinearMap F) => j = key → K.Alike K') rest rest' :=
    hrest.mono fun {i j K K'} hK _ hKK' hj =>
      hKK'.alike (hj ▸ hcolumn key fill hchosen i (hj ▸ BlockMatrix.contains_iff.mpr ⟨K, hK⟩))
  refine Outcome.Mirrors.report_bind ?_
  dsimp only
  rw [pivotInverse_eq hrest hread]
  refine .bind_same fun inv hinv => .bind_same fun dim _ => .bind_same fun D hD => ?_
  have hempty : key ∉ (BlockMatrix.empty : BlockMatrix F).colKeys := nofun
  obtain rfl : single key inv = D := by
    rw [insertOrAdd_of_not_mem_colKeys hempty] at hD
    exact Except.ok.inj hD
  obtain ⟨d, -, hinv⟩ := exists_diagonal_of_pivotInverse hinv
  -- From here on the two runs have columns of their own, which may be stored differently.
  refine .bind (.lift (mirrors_offDiagonal hbelow fun _ _ _ _ hK => hK rfl)) fun V V' hV => ?_
  refine .bind (mirrors_mul_single hV (LinearMap.upright_of_inverse hinv)) fun VD VD' hVD => ?_
  refine .bind (.lift (hlower.mirrors_add hVD.sameContents)) fun lower lower' hlower => .bind_same fun diagInv _ => ?_
  refine .bind (.lift (mirrors_transpose_column hV hVD)) fun VT VT' hVT => ?_
  refine .bind (mirrors_mul_transpose hVD.sameContents hVT) fun U U' hU => ?_
  refine .bind (.lift ((agrees_eraseKey hrest key).mirrors_addScaled sumClosed_sameRead hU (-1) ?_)) ?_
  · exact fun hK => .of_alikeWith hK _
  · exact fun rest rest' hrest => .pure ⟨hrest, hlower, rfl, rfl, rfl⟩

omit [Scalar F] in
theorem order_of_reshapes {order : List String} {s₁ : State F} {key : String} (h : order <+: s.order)
    (hstep : Reshapes s key s₁) : order <+: s₁.order :=
  hstep.order_eq ▸ h.trans (List.prefix_append _ _)

omit [Scalar F] in
theorem below_of_initial {order done : List String} {key i : String} (hnodup : order.Nodup) (hi : i ∈ order)
    (hinitial : done ++ [key] <+: order) (hdone : i ∉ done) : i = key ∨ Precedes order key i := by
  obtain ⟨todo, rfl⟩ := hinitial
  by_cases hkey : i = key
  · exact .inl hkey
  · refine .inr ?_
    rw [List.append_assoc, List.mem_append, List.singleton_append, List.mem_cons] at hi
    obtain ⟨q, hq⟩ := List.mem_iff_getElem?.mp ((hi.resolve_left hdone).resolve_left hkey)
    refine ⟨done.length, done.length + 1 + q, by omega, by simp, ?_⟩
    rw [List.append_assoc, List.getElem?_append_right (by omega), List.singleton_append]
    rw [show done.length + 1 + q - done.length = q + 1 by omega, List.getElem?_cons_succ, hq]

/-- The order that the first run ends with tells what the second run has to read alike. -/
theorem Traced.returns_steps {A : BlockMatrix F} (hnodup : order.Nodup) (hmem : ∀ k ∈ A.colKeys, k ∈ order) {n : ℕ}
    {t : State F} (hs : Traced A s) (h : SameState order s s') (ht : (steps par n s).result = .ok t)
    (horder : t.order = order) : (steps par n s').Returns (SameState order t) := by
  induction n generalizing s s' with
  | zero => exact Except.ok.inj ht ▸ h
  | succ n ih =>
    obtain ⟨s₁, hs₁, ht⟩ := Outcome.exists_of_bind_eq_ok ht
    obtain ⟨key, fill, hpivot, hstep⟩ := (ends_step_pivot par s).of_result_eq_ok hs₁
    have hinitial : s.order ++ [key] <+: order := by
      rw [← hstep.order_eq, ← horder]
      exact (ends_steps_of_reshapes (fun _ _ _ => order_of_reshapes) par n List.prefix_rfl).of_result_eq_ok ht
    have hcolumn : ∀ key' fill', (nextPivot par.rule s.rest).result = .ok (key', fill') →
        ∀ i, s.rest.contains i key' → i = key' ∨ Precedes order key' i := by
      intro key' fill' hpivot' i hi
      obtain ⟨rfl, rfl⟩ := Prod.mk.inj (Except.ok.inj (hpivot.symm.trans hpivot'))
      obtain ⟨hiA, hdone⟩ := (hs.mem_rest i).mp (mem_colKeys_of_contains (hs.comm i key hi))
      exact below_of_initial hnodup (hmem i hiA) hinitial hdone
    exact (h.mirrors_step hcolumn s₁ hs₁).bind fun s₁' h₁ => ih (hs.reshapes hstep) h₁ ht

/-- The factors have the same order, dimensions and inverses of the diagonal blocks, and the blocks of both triangles
have the same contents. -/
structure SameContents (f f' : Factor F) : Prop where
  order_eq : f'.order = f.order
  dims_eq : f'.dims = f.dims
  diagInv_eq : f'.diagInv = f.diagInv
  lower : f.lower.SameContents f'.lower
  upper : f.upper.SameContents f'.upper

theorem returns_of_sameRead {A A' : BlockMatrix F} {f : Factor F} (hA : ∀ i j, A.contains i j → A.contains j i)
    (hf : (compute par A).result = .ok f) (h : Agrees (SameRead f.order) A A') :
    (compute par A').Returns f.SameContents := by
  obtain ⟨hnodup, hmem⟩ := order_of_symmetric hA hf
  obtain ⟨_, -, hf⟩ := Outcome.exists_of_bind_eq_ok hf
  obtain ⟨t, ht, hf⟩ := Outcome.exists_of_bind_eq_ok hf
  obtain ⟨upper, hupper, hf⟩ := Outcome.exists_of_bind_eq_ok hf
  obtain rfl := Except.ok.inj hf
  have hstart : SameState t.order (.start A) (.start A') := ⟨h, .empty, rfl, rfl, rfl⟩
  have hrun := (Traced.start hA).returns_steps hnodup (fun k hk => (hmem k).mpr hk) hstart ht rfl
  refine Outcome.Yields.report_bind ?_
  rw [h.colKeys_eq]
  refine hrun.bind fun t' h' => ?_
  refine (Outcome.Mirrors.lift h'.lower.mirrors_transpose upper hupper).bind fun upper' hupper => ?_
  exact Outcome.Yields.report_bind ⟨h'.order_eq, h'.dims_eq, h'.diagInv_eq, h'.lower, hupper⟩

/-- What is left of `A` has blocks only in columns of `A` that have blocks, and only such columns are eliminated. -/
structure Grounded (A : BlockMatrix F) (s : State F) : Prop where
  rest : ∀ i j, s.rest.contains i j → (∃ r, A.contains r i) ∧ ∃ r, A.contains r j
  order : ∀ k ∈ s.order, ∃ r, A.contains r k

omit [Scalar F] in
theorem Grounded.reshapes {A : BlockMatrix F} {key : String} (hs : Grounded A s) (h : Reshapes s key s') :
    Grounded A s' where
  rest i j hc := by
    rcases (h.rest_contains i j).mp hc with ⟨hc, -, -⟩ | ⟨⟨-, hi⟩, -, hj⟩
    · exact hs.rest i j hc
    · exact ⟨(hs.rest i key hi).1, (hs.rest j key hj).1⟩
  order k hk := by
    rw [h.order_eq, List.mem_append, List.mem_singleton] at hk
    rcases hk with hk | rfl
    · exact hs.order k hk
    · exact (hs.rest k k h.diagonal).1

/-- A column without blocks stays one, and it cannot be eliminated. -/
theorem occupied_of_symmetric {A : BlockMatrix F} {f : Factor F} (hA : ∀ i j, A.contains i j → A.contains j i)
    (hf : (compute par A).result = .ok f) : A.Occupied := by
  have hstart : Grounded A (.start A) :=
    ⟨fun i j hc => ⟨⟨j, hA i j hc⟩, i, hc⟩, fun k hk => absurd hk List.not_mem_nil⟩
  obtain ⟨t, ht, horder, -⟩ := exists_final_state (fun _ _ _ hs hstep => hs.reshapes hstep) hstart hf
  exact fun k hk => ht.order k (horder ▸ ((order_of_symmetric hA hf).2 k).mpr hk)

/-- Only one triangle is read. Let a second matrix have blocks at the places of `A`, of the kinds and sizes that they
have in `A`. If they have the same contents below the diagonal, in the order in which `A` is factored, and on the
diagonal also are such that inversion reads the same of them, the second matrix is factored in this order too, and
all parts of its factor have the same contents. -/
theorem compute_reads_triangle {A A' : BlockMatrix F} {f : Factor F} (hA : ∀ i j, A.contains i j → A.contains j i)
    (hf : (compute par A).result = .ok f) (hA' : A'.Occupied)
    (hlook : ∀ i j, (A'.get? i j).map LinearMap.look = (A.get? i j).map LinearMap.look)
    (hdiagonal : ∀ k K K', A.get? k k = some K → A'.get? k k = some K' → K.SamePivot K')
    (hbelow : ∀ i j K K', Precedes f.order j i → A.get? i j = some K → A'.get? i j = some K' → K.Alike K') :
    (compute par A').Returns f.SameContents := by
  refine returns_of_sameRead hA hf (.of_get? (occupied_of_symmetric hA hf) hA' hlook ?_)
  intro i j K K' hK hK'
  refine ⟨?_, fun hij => hbelow i j K K' hij hK hK'⟩
  rintro rfl
  exact hdiagonal i K K' hK hK'

end Run

/-- Of least fill is `b`, whose column has one row. It is eliminated first, so the last block stands above the
diagonal. -/
def slanted (pivot below above : Dense ℚ) : BlockMatrix ℚ :=
  (((BlockMatrix.empty.set "a" "a" (.ofScalar 1 4)).set "b" "b" (.dense pivot)).set "a" "b" (.dense below)).set "b" "a"
    (.dense above)

def leaning : BlockMatrix ℚ :=
  slanted (.ofEntries 2 2 fun i j => if i = j then 3 else 1) (.ofEntries 1 2 fun _ j => j + 1)
    (.ofEntries 2 1 fun i _ => i + 1)

/-- The blocks of the first column are stored the other way round, and what stands above the diagonal is different. -/
def turned : BlockMatrix ℚ :=
  slanted (Dense.ofEntries 2 2 fun i j => if i = j then 3 else 1).transpose
    (Dense.ofEntries 2 1 fun i _ => (i : ℚ) + 1).transpose (.ofEntries 2 1 fun i _ => 7 * i)

theorem turned_factor : ∃ f f', (compute ⟨0, .minFill⟩ leaning).result = .ok f ∧
    (compute ⟨0, .minFill⟩ turned).result = .ok f' ∧ f.SameContents f' := by
  have hcomm : ∀ i j, leaning.contains i j → leaning.contains j i := by
    intro i j hc
    simp only [leaning, slanted, contains_set, iff_false_intro (contains_empty _ _)] at hc ⊢
    tauto
  obtain ⟨f, hf⟩ := exists_eq_ok (show (compute ⟨0, .minFill⟩ leaning).result.toBool = true by decide +kernel)
  obtain ⟨f', hf'⟩ := exists_eq_ok (show (compute ⟨0, .minFill⟩ turned).result.toBool = true by decide +kernel)
  have hrun : ∀ g ∈ (compute ⟨0, .minFill⟩ leaning).result.toOption, g.order = ["b", "a"] := by decide +kernel
  have horder : f.order = ["b", "a"] := hrun f (by rw [hf]; exact rfl)
  have hoccupied : turned.Occupied := (((occupied_empty.set _ _ _).set _ _ _).set _ _ _).set _ _ _
  refine ⟨f, f', hf, hf', (compute_reads_triangle hcomm hf hoccupied ?_ ?_ ?_).of_result_eq_ok hf'⟩
  · intro i j
    simp only [leaning, turned, slanted, get?_set]
    split_ifs <;> rfl
  · intro k K K' hK hK'
    simp only [leaning, turned, slanted, get?_set, get?_empty] at hK hK'
    by_cases hb : k = "b"
    · subst hb
      obtain rfl := Option.some.inj hK
      obtain rfl := Option.some.inj hK'
      refine .dense ⟨rfl, rfl, by decide +kernel⟩ (.inr ⟨rfl, by decide +kernel⟩)
    · have heq : K = K' := by grind
      exact heq ▸ .refl K
  · intro i j K K' hij hK hK'
    obtain ⟨rfl, rfl⟩ : j = "b" ∧ i = "a" := by
      obtain ⟨p, q, hlt, hp, hq⟩ := hij
      rw [horder] at hp hq
      obtain ⟨hq', -⟩ := List.getElem?_eq_some_iff.mp hq
      obtain ⟨rfl, rfl⟩ : p = 0 ∧ q = 1 := by
        simp only [List.length_cons, List.length_nil] at hq'
        omega
      exact ⟨(Option.some.inj hp).symm, (Option.some.inj hq).symm⟩
    obtain rfl := Option.some.inj hK
    obtain rfl := Option.some.inj hK'
    exact .dense ⟨rfl, rfl, by decide +kernel⟩

/-- Both matrices have one block, with rows `1 2` and `3 4`. Its array is inverted as if it had the rows `1 3` and `3 4`
in the first, and `1 2` and `2 4` in the second. -/
def lopsidedBlock : BlockMatrix ℚ :=
  BlockMatrix.empty.set "a" "a" (.ofEntries 2 2 fun i j => 2 * i + j + 1)

def flippedBlock : BlockMatrix ℚ :=
  BlockMatrix.empty.set "a" "a" (LinearMap.ofEntries 2 2 fun i j => (i + 2 * j + 1 : ℚ)).transpose

theorem not_forall_reads_triangle : ¬∀ (A A' : BlockMatrix ℚ) (f : Factor ℚ),
    (∀ i j, A.contains i j → A.contains j i) → (compute ⟨0, .minFill⟩ A).result = .ok f → A.SameContents A' →
      (compute ⟨0, .minFill⟩ A').Returns f.SameContents := by
  intro hall
  obtain ⟨f, hf⟩ := exists_eq_ok (show (compute ⟨0, .minFill⟩ lopsidedBlock).result.toBool = true by decide +kernel)
  have hcomm : ∀ i j, lopsidedBlock.contains i j → lopsidedBlock.contains j i := by
    intro i j hc
    simp only [lopsidedBlock, contains_set, iff_false_intro (contains_empty _ _)] at hc ⊢
    tauto
  have hsame : lopsidedBlock.SameContents flippedBlock :=
    Agrees.empty.set rfl (.dense ⟨rfl, rfl, by decide +kernel⟩)
  have hsingular : (compute ⟨0, .minFill⟩ flippedBlock).result = .error (.error (.pivot "a" .singular)) :=
    eq_error_of_map (by decide +kernel)
  have hreturns := hall _ _ f hcomm hf hsame
  unfold Outcome.Returns Outcome.Yields at hreturns
  rwa [hsingular] at hreturns

end BlockElimination.Factor
