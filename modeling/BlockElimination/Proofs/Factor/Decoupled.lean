import BlockElimination.Proofs.BlockMatrix.Diagonal
import BlockElimination.Proofs.Factor.Progress
import BlockElimination.Proofs.Factor.Solve
import BlockElimination.Proofs.LinearMap.Marks

/-!
# Factors of block-diagonal matrices

Where nothing is coupled, every fill is zero and there is nothing to update: the names go in their order, and what is left
of the factor is the inverse of the matrix. The two computations find the same inverses and stop at the same block.
-/
namespace BlockElimination

namespace BlockMatrix

variable {F ε : Type} [Arith F]

theorem empty_mul (A : BlockMatrix F) : (empty.mul A : Outcome ε (BlockMatrix F)) = .ok empty := by
  have hmeetings : meetings empty A = [] := List.flatMap_eq_nil_iff.mpr fun _ _ => rfl
  rw [mul, hmeetings]
  rfl

theorem transpose_empty : (empty : BlockMatrix F).transpose = .ok empty := rfl

theorem addScaled_empty (alpha : F) (A : BlockMatrix F) : A.addScaled alpha empty = .ok A := rfl

end BlockMatrix

namespace Factor

open BlockMatrix

section Choice
variable {F : Type} {D : Keyed (LinearMap F)} {k : String} {a : LinearMap F}

theorem offDiagonalEntries_diagonalOf (D : Keyed (LinearMap F)) (k : String) :
    offDiagonalEntries (diagonalOf D) k = [] := by
  rw [offDiagonalEntries, column?_diagonalOf]
  cases D.get? k <;> simp

theorem diagonal_diagonalOf (h : D.get? k = some a) : diagonal (diagonalOf D) k = .ok a := by
  rw [diagonal, get?_diagonalOf, if_pos rfl, h]

theorem fill_diagonalOf (h : D.get? k = some a) : fill (diagonalOf D) k = .ok 0 := by
  rw [fill, diagonal_diagonalOf h, offDiagonalEntries_diagonalOf]
  rfl

theorem offDiagonal_diagonalOf [Arith F] (D : Keyed (LinearMap F)) (k : String) :
    offDiagonal (diagonalOf D) k = .ok .empty := by
  rw [offDiagonal, offDiagonalEntries_diagonalOf]
  rfl

theorem add_single [Arith F] {A : BlockMatrix F} (hk : k ∉ A.colKeys) (ha : a.scale 1 = a) :
    A.add (single k a) = .ok (A.set k k a) := by
  have hadd : A.add (single k a) = A.insertOrAdd k k (a.scale 1) >>= pure := rfl
  rw [hadd, ha, insertOrAdd_of_not_mem_colKeys hk]
  rfl

/-- All fills are zero, and the first name is kept. -/
theorem ends_leastFill_diagonalOf {q : BlockError → Prop} {r : Fault → Prop} (D : Keyed (LinearMap F)) :
    (leastFill? (diagonalOf D)).Ends (· = D.keys.head?.map fun k => (k, 0)) q r := by
  rw [leastFill?, colKeys_diagonalOf]
  refine Outcome.Ends.foldlM (fun done best => best = done.head?.map fun k => (k, 0)) rfl ?_
  rintro done k hk _ rfl
  obtain ⟨a, ha⟩ := Keyed.contains_iff.mp (Keyed.mem_keys.mp hk)
  rw [fill_diagonalOf ha, Outcome.ok_bind]
  refine Outcome.Ends.report_bind (Outcome.Ends.pure_iff.mpr ?_)
  cases done <;> rfl

theorem ends_nextPivot_diagonalOf {q : BlockError → Prop} {r : Fault → Prop} {todo : List (String × LinearMap F)}
    (h : D.entries = (k, a) :: todo) (rule : PivotRule) : (nextPivot rule (diagonalOf D)).Ends (· = (k, 0)) q r := by
  have hfirst : (D.keys.head?.map fun k => (k, 0)) = some (k, 0) := by
    rw [Keyed.keys, h]
    rfl
  cases rule with
  | minFill =>
    refine (ends_leastFill_diagonalOf D).bind ?_
    rintro _ rfl
    rw [hfirst]
    exact rfl
  | natural =>
    refine Outcome.Ends.bind (p := (· = some (k, 0))) (Outcome.Ends.pure_iff.mpr ?_) ?_
    · rw [colKeys_diagonalOf, hfirst]
    · rintro _ rfl
      exact rfl

theorem eraseKey_diagonalOf (h : D.get? k = some a) : eraseKey (diagonalOf D) k = diagonalOf (D.erase k) := by
  have herase : eraseKey (diagonalOf D) k = (diagonalOf D).erase k k := by
    rw [eraseKey, column?_diagonalOf, h]
    simp [Keyed.keys]
  rw [herase]
  refine ((occupied_diagonalOf D).erase k k).ext_get? (occupied_diagonalOf _) fun i j => ?_
  rw [get?_erase, get?_diagonalOf, get?_diagonalOf, Keyed.get?_erase]
  grind

end Choice

section Run
variable {F : Type} [Scalar F] {eps : F} {k : String} {a J : LinearMap F} {done todo : List (String × LinearMap F)}
  {s : State F}

/-- `done` has been eliminated and `todo` is left. -/
structure Decoupled (eps : F) (done todo : List (String × LinearMap F)) (s : State F) : Prop where
  rest_eq : ∃ D : Keyed (LinearMap F), D.entries = todo ∧ s.rest = diagonalOf D
  lower_eq : s.lower = .empty
  inverts : InvertsAll eps (done.map fun p => (p.1, p.1, p.2)) s.diagInv
  order_eq : s.order = done.map Prod.fst
  dims_eq : s.dims = done.map fun p => p.2.rows

theorem Decoupled.start (D : Keyed (LinearMap F)) : Decoupled eps [] D.entries (.start (diagonalOf D)) where
  rest_eq := ⟨D, rfl, rfl⟩
  lower_eq := rfl
  inverts := .nil
  order_eq := rfl
  dims_eq := rfl

omit [Scalar F] in
theorem not_mem_places (hk : k ∉ done.map Prod.fst) (c : String) (K : LinearMap F) :
    (k, c, K) ∉ done.map fun p => (p.1, p.1, p.2) := fun hK => by
  obtain ⟨p, hp, heq⟩ := List.mem_map.mp hK
  exact hk (List.mem_map.mpr ⟨p, hp, congrArg Prod.fst heq⟩)

theorem Decoupled.not_mem_colKeys (h : Decoupled eps done todo s) (hk : k ∉ done.map Prod.fst) :
    k ∉ s.diagInv.colKeys := fun hmem => by
  obtain ⟨c, hc⟩ := h.inverts.occupied k hmem
  obtain ⟨J, hJ⟩ := contains_iff.mp hc
  obtain ⟨K, hK, -⟩ := (h.inverts.get?_eq_some_iff k c J).mp hJ
  exact not_mem_places hk c K hK

theorem Decoupled.advance (h : Decoupled eps done ((k, a) :: todo) s) (hk : k ∉ done.map Prod.fst)
    (hJ : (a.inverse eps).result = .ok J) (hrows : J.cols = a.rows) {D : Keyed (LinearMap F)}
    (hD : D.entries = (k, a) :: todo) : Decoupled eps (done ++ [(k, a)]) todo
      ⟨diagonalOf (D.erase k), .empty, s.diagInv.set k k J, s.order ++ [k], s.dims ++ [J.cols]⟩ where
  rest_eq := by
    refine ⟨_, ?_, rfl⟩
    have hnot : ∀ p ∈ todo, p.1 ≠ k := fun p hp e =>
      String.lt_irrefl _ (e ▸ (List.pairwise_cons.mp (hD ▸ D.sorted)).1 p hp)
    change D.entries.filter (·.1 != k) = todo
    rw [hD]
    simpa using hnot
  lower_eq := rfl
  inverts := by
    rw [List.map_append]
    exact h.inverts.set (not_mem_places hk k) hJ
  order_eq := by rw [h.order_eq, List.map_append, List.map_singleton]
  dims_eq := by rw [h.dims_eq, List.map_append, List.map_singleton, hrows]

variable (hone : ∀ x : F, 1 * x = x)

include hone in
theorem Decoupled.ends_step {par : FactorParameters F} (h : Decoupled par.tolerance done ((k, a) :: todo) s)
    (hk : k ∉ done.map Prod.fst) (ha : a.Fits) :
    (step par s).Ends (Decoupled par.tolerance (done ++ [(k, a)]) todo)
      (fun e => ∃ cause, (a.inverse par.tolerance).result = .error (.error cause) ∧ e = .pivot k cause)
      fun _ => False := by
  obtain ⟨D, hD, hrest⟩ := h.rest_eq
  have hget : D.get? k = some a := (Keyed.mem_entries_iff _ _ _).mp (hD ▸ List.mem_cons_self)
  unfold step
  rw [hrest, h.lower_eq]
  refine (ends_nextPivot_diagonalOf hD par.rule).bind ?_
  rintro _ rfl
  refine Outcome.Ends.report_bind ?_
  rw [pivotInverse, diagonal_diagonalOf hget, Outcome.ok_bind]
  refine Outcome.Ends.bind (Outcome.Ends.mapError (ha.ends_inverse _).result_eq fun e he => ⟨e, he, rfl⟩) fun J hJ => ?_
  have hshape : LinearMap.SameShape J a := (ha.ends_inverse _).of_result_eq_ok hJ
  have hsquare : a.rows = a.cols := ((LinearMap.Sized.yields_inverse par.tolerance ⟨rfl, rfl⟩).of_result_eq_ok hJ).1
  have hrows : J.cols = a.rows := hshape.cols_eq.trans hsquare.symm
  have hcount : J.colCount = .ok J.cols := by
    rw [LinearMap.colCount, LinearMap.size_of_fits (hshape.fits_iff.mpr ha)]
    rfl
  -- The only arithmetic on the inverse is the factor one with which it is added to the diagonal.
  have hscale : J.scale 1 = J := LinearMap.scale_one hone (LinearMap.unmarked_of_inverse hJ)
  refine Outcome.Ends.lift_bind_eq hcount ?_
  refine Outcome.Ends.lift_bind_eq (insertOrAdd_of_not_mem_colKeys (A := BlockMatrix.empty) List.not_mem_nil k J) ?_
  refine Outcome.Ends.lift_bind_eq (offDiagonal_diagonalOf D k) ?_
  rw [empty_mul, Outcome.ok_bind]
  refine Outcome.Ends.lift_bind_eq (addScaled_empty 1 _) ?_
  refine Outcome.Ends.lift_bind_eq (add_single (h.not_mem_colKeys hk) hscale) ?_
  refine Outcome.Ends.lift_bind_eq transpose_empty ?_
  rw [empty_mul, Outcome.ok_bind]
  refine Outcome.Ends.lift_bind_eq (addScaled_empty (-1) _) ?_
  rw [eraseKey_diagonalOf hget]
  exact Outcome.Ends.pure_iff.mpr (h.advance hk hJ hrows hD)

include hone in
/-- A run inverts the blocks one after the other, up to the first that has no inverse. -/
theorem Decoupled.ends_steps {par : FactorParameters F} (h : Decoupled par.tolerance done todo s)
    (hnodup : ((done ++ todo).map Prod.fst).Nodup) (hfits : ∀ p ∈ todo, p.2.Fits) :
    (steps par todo.length s).Ends (Decoupled par.tolerance (done ++ todo) [])
      (fun e => ∃ k cause, FirstFailure par.tolerance todo k cause ∧ e = .pivot k cause) fun _ => False := by
  induction todo generalizing done s with
  | nil => exact (List.append_nil done).symm ▸ h
  | cons p todo ih =>
    obtain ⟨k, a⟩ := p
    have hk : k ∉ done.map Prod.fst := not_mem_map_of_nodup hnodup
    have ha : a.Fits := hfits (k, a) List.mem_cons_self
    have hsplit : done ++ (k, a) :: todo = done ++ [(k, a)] ++ todo := by simp
    rw [hsplit] at hnodup ⊢
    refine ((h.ends_step hone hk ha).mono (fun _ hs => hs) ?_ fun _ hf => hf).bind fun s' hs' => ?_
    · rintro _ ⟨cause, hcause, rfl⟩
      exact ⟨k, cause, ⟨[], a, todo, rfl, nofun, hcause⟩, rfl⟩
    · refine (ih hs' hnodup fun p hp => hfits p (List.mem_cons_of_mem _ hp)).mono (fun _ hs => hs) ?_ fun _ hf => hf
      rintro e ⟨k', cause, hfirst, rfl⟩
      refine ⟨k', cause, hfirst.cons ?_, rfl⟩
      exact hs'.inverts.inverted (k, k, a) (by simp)

/-- The factor of a block-diagonal matrix. -/
structure Uncoupled (eps : F) (D : Keyed (LinearMap F)) (f : Factor F) : Prop where
  order_eq : f.order = D.keys
  dims_eq : f.dims = D.entries.map fun p => p.2.rows
  lower_eq : f.lower = .empty
  upper_eq : f.upper = .empty
  inverts : InvertsAll eps (diagonalOf D).blocks f.diagInv

include hone in
theorem ends_compute_diagonalOf (par : FactorParameters F) {D : Keyed (LinearMap F)}
    (hfits : ∀ p ∈ D.entries, p.2.Fits) : (compute par (diagonalOf D)).Ends (Uncoupled par.tolerance D)
      (fun e => ∃ k cause, FirstFailure par.tolerance D.entries k cause ∧ e = .pivot k cause) fun _ => False := by
  have hlength : (diagonalOf D).colKeys.length = D.entries.length := by
    rw [colKeys_diagonalOf, Keyed.keys, List.length_map]
  unfold compute
  rw [hlength]
  refine Outcome.Ends.report_bind ?_
  refine ((Decoupled.start D).ends_steps hone D.nodup_keys hfits).bind fun s hs => ?_
  have htranspose : s.lower.transpose = .ok .empty := by rw [hs.lower_eq, transpose_empty]
  refine Outcome.Ends.lift_bind_eq htranspose ?_
  refine Outcome.Ends.report_bind (Outcome.Ends.pure_iff.mpr ?_)
  exact ⟨hs.order_eq, hs.dims_eq, hs.lower_eq, rfl, blocks_diagonalOf D ▸ hs.inverts⟩

end Run

section Solution
variable {F : Type} [Arith F] {f : Factor F} {b : BlockVector F} {dim : String → ℕ}

theorem sweep_empty (pairs : List (ℕ × ℕ)) (xs : Array (String × Array F)) : sweep .empty pairs xs = .ok xs := by
  induction pairs with
  | nil => rfl
  | cons p pairs ih =>
    have hstep : sweep .empty [p] xs = .ok xs := by
      simp only [sweep, List.foldlM_cons, List.foldlM_nil, get?_empty, bind_pure]
      split <;> rfl
    rw [sweep_cons, hstep]
    exact ih

variable (hdims : f.dims = f.order.map dim) (hb : Fitting f.order dim b)
include hdims

omit [Arith F] in
include hb in
theorem checkRightSide_eq_ok (hdim : ∀ k ∈ f.order, dim k < Size.capacity) : checkRightSide f b = .ok () := by
  rw [checkRightSide, zip_dims hdims]
  unfold Fitting at hb
  generalize f.order = order at hb hdim
  induction order with
  | nil => rfl
  | cons k order ih =>
    rw [List.map_cons, List.forM_eq_forM, List.forM_cons]
    have hrest := ih (fun k hk => hb k (List.mem_cons_of_mem _ hk)) fun k hk => hdim k (List.mem_cons_of_mem _ hk)
    dsimp only
    split
    case h_1 s hs =>
      rw [if_pos (hb k List.mem_cons_self s hs)]
      exact hrest
    case h_2 =>
      rw [Size.storable_eq_ok_iff.mpr (hdim k List.mem_cons_self)]
      exact hrest

theorem rightSide_eq_map (b : BlockVector F) :
    rightSide f b = (f.order.map fun k => (k, (b.get? k).getD (Kernel.zeros (dim k)))).toArray := by
  rw [rightSide, zip_dims hdims, List.map_map]
  rfl

include hb in
/-- Without couplings, solving applies the inverse of each block to the segment of its name. -/
theorem exists_solve_of_empty (hlower : f.lower = .empty) (hupper : f.upper = .empty) (hnodup : f.order.Nodup)
    (hdim : ∀ k ∈ f.order, dim k < Size.capacity) (z : String → Array F)
    (hz : ∀ k ∈ f.order, ∃ J, f.diagInv.get? k k = some J ∧
      J.apply ((b.get? k).getD (Kernel.zeros (dim k))) = .ok (z k)) :
    ∃ x, f.solve b = .ok x ∧ ∀ k ∈ f.order, x.get? k = some (z k) := by
  have hscale : scaleByDiagonal f (rightSide f b) = .ok (f.order.map fun k => (k, z k)).toArray := by
    rw [scaleByDiagonal, rightSide_eq_map hdims, List.mapM_toArray]
    rw [mapM_eq_ok (g := fun p => (p.1, z p.1)) fun p hp => ?_, List.map_map]
    · rfl
    · obtain ⟨k, hk, rfl⟩ := List.mem_map.mp hp
      obtain ⟨J, hJ, happly⟩ := hz k hk
      simp only [hJ, happly]
      rfl
  have hkeys : ((f.order.map fun k => (k, z k)).map Prod.fst).Nodup := by simpa [Function.comp_def] using hnodup
  obtain ⟨x, hx, hget⟩ :=
    BlockVector.exists_insertAll_fresh (v := BlockVector.empty) hkeys fun p _ hc => Bool.false_ne_true hc
  refine ⟨x, ?_, fun k hk => (hget k _).mpr (.inr (List.mem_map.mpr ⟨k, hk, rfl⟩))⟩
  rw [solve, checkRightSide_eq_ok hdims hb hdim, hlower, hupper]
  simp only [sweep_empty, bind, Except.bind, hscale]
  exact hx

end Solution

section Answers
variable {F : Type} [Scalar F] {D : Keyed (LinearMap F)}

theorem exists_compute_iff (hone : ∀ x : F, 1 * x = x) {par : FactorParameters F} (hfits : ∀ p ∈ D.entries, p.2.Fits) :
    (∃ f, (compute par (diagonalOf D)).result = .ok f) ↔
      ∀ p ∈ D.entries, ∃ J, (p.2.inverse par.tolerance).result = .ok J := by
  have hends := ends_compute_diagonalOf hone par hfits
  constructor
  · rintro ⟨f, hf⟩
    exact (hends.of_result_eq_ok hf).inverts.forall_mem_entries
  · intro hinverted
    obtain ⟨f, hf, -⟩ := hends.exists_of_forall_not
      (fun _ ⟨_, _, hfirst, _⟩ => hfirst.not_forall hinverted) fun _ => id
    exact ⟨f, hf⟩

/-- The dimension of a name with a square block. -/
def dimOf (D : Keyed (LinearMap F)) (k : String) : ℕ := (D.get? k).elim 0 LinearMap.rows

omit [Scalar F] in
theorem dimOf_eq {k : String} {K : LinearMap F} (hK : D.get? k = some K) : dimOf D k = K.rows := by
  rw [dimOf, hK]
  rfl

/-- Every block acts on vectors that can be stored. -/
def Storable (D : Keyed (LinearMap F)) : Prop := ∀ k K, D.get? k = some K → K.Fits ∧ K.rows < Size.capacity

variable {eps : F} {f : Factor F} {k : String}

theorem Uncoupled.dims_eq_map (hf : Uncoupled eps D f) : f.dims = f.order.map (dimOf D) := by
  rw [hf.dims_eq, hf.order_eq, Keyed.keys, List.map_map]
  exact List.map_congr_left fun p hp => (dimOf_eq ((Keyed.mem_entries_iff _ _ _).mp hp)).symm

theorem Uncoupled.exists_get? (hf : Uncoupled eps D f) (hk : k ∈ f.order) : ∃ K, D.get? k = some K :=
  Keyed.contains_iff.mp (Keyed.mem_keys.mp (hf.order_eq ▸ hk))

/-- The inverse of a block can be applied to all vectors of its dimension. -/
theorem Uncoupled.exists_apply (hf : Uncoupled eps D f) (hD : Storable D) (hk : k ∈ f.order) {s : Array F}
    (hs : s.size = dimOf D k) : ∃ J z, f.diagInv.get? k k = some J ∧ J.apply s = .ok z := by
  obtain ⟨K, hK⟩ := hf.exists_get? hk
  obtain ⟨hfits, hrows⟩ := hD k K hK
  have hmem := (Keyed.mem_entries_iff _ _ _).mpr hK
  obtain ⟨J, hJ⟩ := hf.inverts.forall_mem_entries (k, K) hmem
  have hshape : LinearMap.SameShape J K := (hfits.ends_inverse eps).of_result_eq_ok hJ
  have hsquare : K.rows = K.cols := ((LinearMap.Sized.yields_inverse eps ⟨rfl, rfl⟩).of_result_eq_ok hJ).1
  refine ⟨J, _, (hf.inverts.get?_eq_some_iff k k J).mpr ⟨K, ?_, hJ⟩, LinearMap.apply_eq_ok ?_ ?_ ?_ ?_⟩
  · rw [blocks_diagonalOf]
    exact List.mem_map.mpr ⟨(k, K), hmem, rfl⟩
  · exact hshape.fits_iff.mpr hfits
  · exact LinearMap.buffered_of_inverse hJ (hshape.rows_eq ▸ hrows) false
  · rwa [hshape.rows_eq]
  · rw [hs, dimOf_eq hK, hsquare, hshape.cols_eq]

theorem Uncoupled.mem_order (hf : Uncoupled eps D f) {J : LinearMap F} (hJ : f.diagInv.get? k k = some J) :
    k ∈ f.order := by
  obtain ⟨K, hK, -⟩ := (hf.inverts.get?_eq_some_iff k k J).mp hJ
  have hcontains : (diagonalOf D).contains k k := contains_iff.mpr ⟨K, mem_blocks.mp hK⟩
  rw [hf.order_eq, Keyed.mem_keys]
  exact (contains_diagonalOf.mp hcontains).2

/-- Solving and multiplying by the inverse apply the same maps to the same segments. -/
theorem Uncoupled.exists_solve {ε : Type} (hf : Uncoupled eps D f) (hD : Storable D) {b : BlockVector F}
    (hb : Fitting f.order (dimOf D) b) :
    ∃ x y, f.solve b = .ok x ∧ (f.diagInv.apply b : Outcome ε (BlockVector F)).result = .ok y ∧
      ∀ k ∈ f.order, b.contains k → ∃ z, x.get? k = some z ∧ y.get? k = some z := by
  have hsegment : ∀ k ∈ f.order, ∃ z, ∃ J, f.diagInv.get? k k = some J ∧
      J.apply ((b.get? k).getD (Kernel.zeros (dimOf D k))) = .ok z := fun k hk => by
    obtain ⟨J, z, hJ, hz⟩ := hf.exists_apply hD hk (hb.size_getD hk)
    exact ⟨z, J, hJ, hz⟩
  choose! z hz using hsegment
  have hdim : ∀ k ∈ f.order, dimOf D k < Size.capacity := fun k hk => by
    obtain ⟨K, hK⟩ := hf.exists_get? hk
    rw [dimOf_eq hK]
    exact (hD k K hK).2
  obtain ⟨x, hx, hxz⟩ := exists_solve_of_empty hf.dims_eq_map hb hf.lower_eq hf.upper_eq (hf.order_eq ▸ D.nodup_keys)
    hdim z hz
  have hplaces : ∀ t ∈ (diagonalOf D).blocks, t.1 = t.2.1 := by
    rw [blocks_diagonalOf, List.forall_mem_map]
    exact fun _ _ => rfl
  obtain ⟨E, hE⟩ := (hf.inverts.onDiagonal hplaces).exists_eq_diagonalOf hf.inverts.occupied
  have hget : ∀ k, f.diagInv.get? k k = E.get? k := fun k => by rw [hE, get?_diagonalOf, if_pos rfl]
  have hact : ∀ k J s, E.get? k = some J → b.get? k = some s → J.apply s = .ok (z k) := fun k J s hJ hs => by
    rw [← hget] at hJ
    obtain ⟨J', hJ', happly⟩ := hz k (hf.mem_order hJ)
    rw [hs, Option.getD_some] at happly
    rwa [Option.some.inj (hJ.symm.trans hJ')]
  obtain ⟨y, hy, hacted⟩ := exists_apply_diagonalOf (ε := ε) fun k J s hJ hs => ⟨z k, hact k J s hJ hs⟩
  refine ⟨x, y, hx, hE ▸ hy, fun k hk hbk => ⟨z k, hxz k hk, ?_⟩⟩
  obtain ⟨s, hs⟩ := BlockVector.contains_iff.mp hbk
  obtain ⟨J, hJ, -⟩ := hz k hk
  rw [hget] at hJ
  exact hacted.get?_eq hJ (BlockVector.mem_entries.mpr hs) (hact k J s hJ hs)

/-- A factor that is nothing but the inverse of the matrix, in the order of the names. Where the segments of `b` fit, and
vectors of all dimensions can be stored, solving is multiplying by the inverse. -/
structure SolvesByInverse (ε : Type) (A : BlockMatrix F) (f : Factor F) (C : BlockMatrix F) : Prop where
  order_eq : f.order = A.colKeys
  sorted : f.order.Pairwise (· < ·)
  lower_eq : f.lower = .empty
  diagInv_eq : f.diagInv = C
  solve_eq : (∀ k K, A.get? k k = some K → K.rows < Size.capacity) →
    ∀ b : BlockVector F, (∀ k K s, A.get? k k = some K → b.get? k = some s → s.size = K.cols) →
      ∃ x y, f.solve b = .ok x ∧ (C.apply b : Outcome ε (BlockVector F)).result = .ok y ∧
        ∀ k, b.contains k → A.contains k k → ∃ z, x.get? k = some z ∧ y.get? k = some z

theorem Uncoupled.solvesByInverse (ε : Type) (hf : Uncoupled eps D f) (hfits : ∀ p ∈ D.entries, p.2.Fits) :
    SolvesByInverse ε (diagonalOf D) f f.diagInv := by
  have hget : ∀ k, (diagonalOf D).get? k k = D.get? k := fun k => by rw [get?_diagonalOf, if_pos rfl]
  refine ⟨by rw [hf.order_eq, colKeys_diagonalOf], ?_, hf.lower_eq, rfl, fun hstorable b hb => ?_⟩
  · rw [hf.order_eq, ← colKeys_diagonalOf]
    exact pairwise_colKeys _
  · have hD : Storable D := fun k K hK =>
      ⟨hfits (k, K) ((Keyed.mem_entries_iff _ _ _).mpr hK), hstorable k K ((hget k).trans hK)⟩
    have hfitting : Fitting f.order (dimOf D) b := fun k hk s hs => by
      obtain ⟨K, hK⟩ := hf.exists_get? hk
      obtain ⟨J, hJ⟩ := hf.inverts.forall_mem_entries (k, K) ((Keyed.mem_entries_iff _ _ _).mpr hK)
      have hsquare : K.rows = K.cols := ((LinearMap.Sized.yields_inverse eps ⟨rfl, rfl⟩).of_result_eq_ok hJ).1
      rw [hb k K s ((hget k).trans hK) hs, dimOf_eq hK, hsquare]
    obtain ⟨x, y, hx, hy, hsame⟩ := hf.exists_solve (ε := ε) hD hfitting
    refine ⟨x, y, hx, hy, fun k hbk hk => hsame k ?_ hbk⟩
    rw [hf.order_eq, Keyed.mem_keys]
    exact (contains_diagonalOf.mp hk).2

/-- A matrix without blocks off the diagonal has a factor exactly if it has an inverse, provided that its numbers of rows
and of columns are in range; the inverse computes them, the factor does not. Where it is square and there is none, both
stop at the first name whose block has no inverse, for the same reason. -/
theorem compute_onDiagonal (ε : Type) (hone : ∀ x : F, 1 * x = x) {A : BlockMatrix F} (hA : A.Occupied)
    (hdiagonal : A.OnDiagonal) (par : FactorParameters F) :
    ((∃ C, (A.inverse par.tolerance).result = .ok C) ↔
      (∃ f, (compute par A).result = .ok f) ∧ (∃ m, A.rowCount = .ok m) ∧ ∃ n, A.colCount = .ok n) ∧
    (∀ m, A.rowCount = .ok m → A.colCount = .ok m → (∀ f, (compute par A).result ≠ .ok f) →
      ∃ k cause, FailsFirst par.tolerance A k cause ∧ (compute par A).result = .error (.error (.pivot k cause)) ∧
        (A.inverse par.tolerance).result = .error (.error (.linearMap cause))) ∧
    ∀ f C, (compute par A).result = .ok f → (A.inverse par.tolerance).result = .ok C → SolvesByInverse ε A f C := by
  obtain ⟨D, rfl⟩ := hdiagonal.exists_eq_diagonalOf hA
  refine ⟨⟨?_, ?_⟩, fun m hm hn hnone => ?_, fun f C hf hC => ?_⟩
  · rintro ⟨C, hC⟩
    obtain ⟨⟨m, hm⟩, n, hn⟩ := exists_counts_of_inverse hC
    have hinverted := (exists_inverse_iff hm hn).mp ⟨C, hC⟩
    exact ⟨(exists_compute_iff hone (fits_of_colCount hn)).mpr hinverted, ⟨m, hm⟩, n, hn⟩
  · rintro ⟨hf, ⟨m, hm⟩, n, hn⟩
    exact (exists_inverse_iff hm hn).mpr ((exists_compute_iff hone (fits_of_colCount hn)).mp hf)
  · have hends := ends_compute_diagonalOf hone par (fits_of_colCount hn)
    cases hresult : (compute par (diagonalOf D)).result with
    | ok f => exact absurd hresult (hnone f)
    | error stop =>
      cases stop with
      | fault g => exact (hends.of_result_eq_fault hresult).elim
      | error e =>
        obtain ⟨k, cause, hfirst, rfl⟩ := hends.of_result_eq_error hresult
        exact ⟨k, cause, hfirst.failsFirst, rfl, hfirst.inverse_eq hm hn⟩
  · obtain ⟨⟨m, hm⟩, n, hn⟩ := exists_counts_of_inverse hC
    have hfits := fits_of_colCount hn
    have huncoupled := (ends_compute_diagonalOf hone par hfits).of_result_eq_ok hf
    have hinverts := ((occupied_diagonalOf D).ends_inverse hm hn _).of_result_eq_ok hC
    obtain rfl := huncoupled.inverts.unique hinverts.2.2
    exact huncoupled.solvesByInverse ε hfits

end Answers

/-- Three blocks of different kinds. -/
def separate (p q : ℚ) : BlockMatrix ℚ :=
  ((BlockMatrix.empty.set "a" "a" (.ofEntries 2 2 fun i j => if i = j then 2 else 1)).set "b" "b" (.ofScalar 1 p)).set
    "c" "c" (.ofDiagonal #[q])

/-- A vector with a segment at the second name only. -/
def secondOnly (s : Array ℚ) : BlockVector ℚ := ⟨Keyed.empty.insert "b" s⟩

theorem onDiagonal_separate (p q : ℚ) : (separate p q).OnDiagonal := fun i j h => by
  simp only [separate, contains_set] at h
  rcases h with ⟨rfl, rfl⟩ | ⟨rfl, rfl⟩ | ⟨rfl, rfl⟩ | h
  · rfl
  · rfl
  · rfl
  · exact absurd h (contains_empty i j)

theorem separate_compute :
    (∃ f C x y z, (compute ⟨0, .minFill⟩ (separate 3 5)).result = .ok f ∧ ((separate 3 5).inverse 0).result = .ok C ∧
      SolvesByInverse Unit (separate 3 5) f C ∧ f.solve (secondOnly #[6]) = .ok x ∧
      (C.apply (secondOnly #[6]) : Outcome Unit (BlockVector ℚ)).result = .ok y ∧
      x.get? "b" = some z ∧ y.get? "b" = some z) ∧
    ∃ k cause, FailsFirst 0 (separate 0 0) k cause ∧
      (compute ⟨0, .minFill⟩ (separate 0 0)).result = .error (.error (.pivot k cause)) ∧
      ((separate 0 0).inverse 0).result = .error (.error (.linearMap cause)) := by
  have hoccupied : ∀ p q, (separate p q).Occupied := fun p q =>
    ((occupied_empty.set _ _ _).set _ _ _).set _ _ _
  obtain ⟨hiff, -, hsolves⟩ := compute_onDiagonal Unit one_mul (hoccupied 3 5) (onDiagonal_separate 3 5) ⟨0, .minFill⟩
  obtain ⟨-, hfails, -⟩ := compute_onDiagonal Unit one_mul (hoccupied 0 0) (onDiagonal_separate 0 0) ⟨0, .minFill⟩
  constructor
  · obtain ⟨C, hC⟩ := exists_eq_ok (show ((separate 3 5).inverse 0).result.toBool = true by decide +kernel)
    obtain ⟨⟨f, hf⟩, -⟩ := hiff.mp ⟨C, hC⟩
    have hagree := hsolves f C hf hC
    have hsizes : ∀ t ∈ (separate 3 5).blocks, t.2.2.rows < Size.capacity ∧ (t.1 = "b" → t.2.2.cols = 1) := by
      decide +kernel
    have hblocks : ∀ k K, (separate 3 5).get? k k = some K → K.rows < Size.capacity ∧ (k = "b" → K.cols = 1) :=
      fun k K hK => hsizes (k, k, K) (mem_blocks.mpr hK)
    have hsegments : ∀ k K s, (separate 3 5).get? k k = some K → (secondOnly #[6]).get? k = some s → s.size = K.cols := by
      intro k K s hK hs
      rw [secondOnly, BlockVector.get?_insert] at hs
      split at hs
      · obtain rfl := Option.some.inj hs
        rw [(hblocks k K hK).2 ‹_›]
        rfl
      · cases hs
    obtain ⟨x, y, hx, hy, hsame⟩ := hagree.solve_eq (fun k K hK => (hblocks k K hK).1) (secondOnly #[6]) hsegments
    obtain ⟨z, hxz, hyz⟩ := hsame "b" (by decide +kernel) (by decide +kernel)
    exact ⟨f, C, x, y, z, hf, hC, hagree, hx, hy, hxz, hyz⟩
  · refine hfails 4 (by decide +kernel) (by decide +kernel) fun f hf => ?_
    have hstop : (compute ⟨0, .minFill⟩ (separate 0 0)).result.toBool = false := by decide +kernel
    rw [hf] at hstop
    cases hstop

/-- Two identities. -/
def identities (m n : ℕ) : BlockMatrix ℚ :=
  (BlockMatrix.empty.set "a" "a" (.ofScalar m 1)).set "b" "b" (.ofScalar n 1)

/-- The number of rows may be too large for the inverse, which computes it, while each block is inverted on its own. And a
segment that is missing may be too long for the solution, which makes it, while the product with the inverse does
without. -/
theorem identities_disagree :
    ((identities (2 ^ 63) (2 ^ 63)).Occupied ∧ (identities (2 ^ 63) (2 ^ 63)).OnDiagonal ∧
      (∃ f, (compute ⟨0, .minFill⟩ (identities (2 ^ 63) (2 ^ 63))).result = .ok f) ∧
      ∀ C, ((identities (2 ^ 63) (2 ^ 63)).inverse 0).result ≠ .ok C) ∧
    (identities (2 ^ 62) 1).Occupied ∧ (identities (2 ^ 62) 1).OnDiagonal ∧
      ∃ f C y, (compute ⟨0, .minFill⟩ (identities (2 ^ 62) 1)).result = .ok f ∧
        ((identities (2 ^ 62) 1).inverse 0).result = .ok C ∧
        (C.apply (secondOnly #[1]) : Outcome Unit (BlockVector ℚ)).result = .ok y ∧
        ∀ x, f.solve (secondOnly #[1]) ≠ .ok x := by
  have hoccupied : ∀ m n, (identities m n).Occupied := fun m n => (occupied_empty.set _ _ _).set _ _ _
  have hdiagonal : ∀ m n, (identities m n).OnDiagonal := fun m n i j h => by
    simp only [identities, contains_set] at h
    rcases h with ⟨rfl, rfl⟩ | ⟨rfl, rfl⟩ | h
    · rfl
    · rfl
    · exact absurd h (contains_empty i j)
  refine ⟨⟨hoccupied _ _, hdiagonal _ _, ?_, ?_⟩, hoccupied _ _, hdiagonal _ _, ?_⟩
  · exact exists_eq_ok (by decide +kernel)
  · have hfails : ((identities (2 ^ 63) (2 ^ 63)).inverse 0).result.toBool = false := by decide +kernel
    intro C hC
    rw [hC] at hfails
    cases hfails
  · have hact : ∀ C ∈ ((identities (2 ^ 62) 1).inverse 0).result.toOption,
        (C.apply (secondOnly #[1]) : Outcome Unit (BlockVector ℚ)).result.toBool = true := by decide +kernel
    have hstop : ∀ f ∈ (compute ⟨0, .minFill⟩ (identities (2 ^ 62) 1)).result.toOption,
        (f.solve (secondOnly #[1])).toBool = false := by decide +kernel
    obtain ⟨f, hf⟩ := exists_eq_ok
      (show (compute ⟨0, .minFill⟩ (identities (2 ^ 62) 1)).result.toBool = true by decide +kernel)
    obtain ⟨C, hC⟩ := exists_eq_ok (show ((identities (2 ^ 62) 1).inverse 0).result.toBool = true by decide +kernel)
    obtain ⟨y, hy⟩ := exists_eq_ok (hact C (by rw [hC]; exact rfl))
    refine ⟨f, C, y, hf, hC, hy, fun x hx => ?_⟩
    have hfalse := hstop f (by rw [hf]; exact rfl)
    rw [hx] at hfalse
    cases hfalse

end Factor

end BlockElimination
