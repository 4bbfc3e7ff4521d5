import BlockElimination.Proofs.BlockMatrix.TransposedTwice
import BlockElimination.Proofs.LinearMap.Storage
import BlockElimination.Proofs.LinearMap.Symmetric

/-!
# Equality of maps

Two maps are equal for one of three reasons, chosen anew at each part: one storage read the same way, equal arrays, or
equal entries where one of two arrays is read transposed. A number need not be equal to itself, so one storage is a
reason of its own. The reasons combine because a mark in use stands for one payload: what is stored together has one
shape and the same numbers, so that one reason can take the place of another.
-/
namespace BlockElimination

section Payloads
variable {F : Type} [Arith F]

theorem array_beq_iff {x y : Array F} :
    (x == y) = true ↔ x.size = y.size ∧ ∀ i < x.size, (coord x i == coord y i) = true := by
  have hrel := @Array.isEqv_iff_rel F x y fun a b => a == b
  constructor
  · intro h
    obtain ⟨hsize, hcoords⟩ := hrel.mp h
    refine ⟨hsize, fun i hi => ?_⟩
    simpa [coord, hi, hsize ▸ hi] using hcoords i hi
  · rintro ⟨hsize, hcoords⟩
    refine hrel.mpr ⟨hsize, fun i hi => ?_⟩
    simpa [coord, hi, hsize ▸ hi] using hcoords i hi

instance partialEquivBEqArray [PartialEquivBEq F] : PartialEquivBEq (Array F) where
  symm {x y} h := by
    obtain ⟨hsize, hcoords⟩ := array_beq_iff.mp h
    refine array_beq_iff.mpr ⟨hsize.symm, ?_⟩
    intro i hi
    exact PartialEquivBEq.symm (hcoords i (by omega))
  trans {x y z} hxy hyz := by
    obtain ⟨hsize, hcoords⟩ := array_beq_iff.mp hxy
    obtain ⟨hsize', hcoords'⟩ := array_beq_iff.mp hyz
    refine array_beq_iff.mpr ⟨hsize.trans hsize', ?_⟩
    intro i hi
    exact PartialEquivBEq.trans (hcoords i hi) (hcoords' i (by omega))

/-- Where equal numbers are the same, so are equal arrays. -/
theorem array_eq_of_beq (hexact : ∀ a b : F, (a == b) = true → a = b) {x y : Array F} (h : (x == y) = true) :
    x = y := by
  obtain ⟨hsize, hcoords⟩ := array_beq_iff.mp h
  rw [eq_tabulate_coord x, eq_tabulate_coord y, ← hsize]
  exact tabulate_congr fun i hi => hexact _ _ (hcoords i hi)

namespace Stored
variable {α : Type} [BEq α] {a b c : Stored α}

/-- The payloads live in one storage, or their values are equal. -/
def Agrees (a b : Stored α) : Prop := a.sameStorage b = true ∨ (a.value == b.value) = true

theorem agrees_of_unmarked_eq (h : a.unmarked = b.unmarked) (hb : (b.value == b.value) = true) : a.Agrees b := by
  have hvalue : a.value = b.value := (congrArg Stored.value h :)
  right
  rwa [hvalue]

theorem Agrees.symm [PartialEquivBEq α] (h : a.Agrees b) : b.Agrees a :=
  h.imp sameStorage_symm PartialEquivBEq.symm

/-- One storage holds one value, which takes the place of the other. -/
theorem Agrees.trans [PartialEquivBEq α] (hab : a.Agrees b) (hbc : b.Agrees c)
    (left : a.sameStorage b = true → a.value = b.value) (right : b.sameStorage c = true → b.value = c.value) :
    a.Agrees c := by
  rcases hab with hstored | hvalue
  · rcases hbc with hstored' | hvalue'
    · exact .inl (sameStorage_trans hstored hstored')
    · exact .inr (left hstored ▸ hvalue')
  · rcases hbc with hstored' | hvalue'
    · exact .inr (right hstored' ▸ hvalue)
    · exact .inr (PartialEquivBEq.trans hvalue hvalue')

end Stored

/-- Every entry of a map stands at one place of its array. -/
theorem Kernel.exists_place (flipped : Bool) {rows cols i j : ℕ} (hi : i < if flipped then cols else rows)
    (hj : j < if flipped then rows else cols) :
    ∃ p < rows * cols, ∀ a : Array F, Kernel.storedEntry flipped rows a i j = coord a p := by
  cases flipped with
  | false => exact ⟨j * rows + i, Kernel.columnMajor_lt hi hj, fun a => rfl⟩
  | true => exact ⟨i * rows + j, Kernel.columnMajor_lt hj hi, fun a => rfl⟩

/-- Every place of the array has an entry. -/
theorem Kernel.exists_storedEntry (flipped : Bool) {rows cols p : ℕ} (hp : p < rows * cols) :
    ∃ i < (if flipped then cols else rows), ∃ j < (if flipped then rows else cols),
      ∀ a : Array F, Kernel.storedEntry flipped rows a i j = coord a p := by
  have hrows : p % rows < rows := Nat.mod_lt p (Nat.pos_of_mul_pos_right (Nat.zero_lt_of_lt hp))
  have hcols : p / rows < cols := Nat.div_lt_of_lt_mul hp
  have hplace : p / rows * rows + p % rows = p := Nat.div_add_mod' p rows
  cases flipped with
  | false => exact ⟨_, hrows, _, hcols, fun a => congrArg (coord a) hplace⟩
  | true => exact ⟨_, hcols, _, hrows, fun a => congrArg (coord a) hplace⟩

namespace Dense
variable {d e f : Dense F}

/-- The maps have one size, and one storage read the same way or else equal entries. -/
structure Equal (d e : Dense F) : Prop where
  height : d.height = e.height
  width : d.width = e.width
  reads : (d.flipped = e.flipped ∧ d.array.sameStorage e.array = true) ∨
    ∀ i < d.height, ∀ j < d.width, (d.entry i j == e.entry i j) = true

omit [Arith F] in
theorem rows_eq_of_flipped_eq (hheight : d.height = e.height) (hwidth : d.width = e.width)
    (hflip : d.flipped = e.flipped) : d.rows = e.rows ∧ d.cols = e.cols := by
  cases h : e.flipped <;> simp [height, width, hflip, h] at hheight hwidth <;> omega

/-- Arrays that are read the same way are equal just if all entries are. -/
theorem array_beq_iff_entry (hheight : d.height = e.height) (hwidth : d.width = e.width)
    (hflip : d.flipped = e.flipped) : (d.array.value == e.array.value) = true ↔
      ∀ i < d.height, ∀ j < d.width, (d.entry i j == e.entry i j) = true := by
  obtain ⟨hrows, hcols⟩ := rows_eq_of_flipped_eq hheight hwidth hflip
  have hsize : d.array.value.size = e.array.value.size := by rw [d.size_array, e.size_array, hrows, hcols]
  have hd : ∀ i j, d.entry i j = Kernel.storedEntry d.flipped d.rows d.array.value i j := fun _ _ => rfl
  have he : ∀ i j, e.entry i j = Kernel.storedEntry d.flipped d.rows e.array.value i j := by
    rw [hflip, hrows]
    exact fun _ _ => rfl
  rw [array_beq_iff]
  constructor
  · rintro ⟨-, hcoords⟩ i hi j hj
    obtain ⟨p, hp, hplace⟩ := Kernel.exists_place (F := F) d.flipped hi hj
    rw [hd, he, hplace, hplace]
    exact hcoords p (d.size_array ▸ hp)
  · intro hentries
    refine ⟨hsize, fun p hp => ?_⟩
    obtain ⟨i, hi, j, hj, hplace⟩ := Kernel.exists_storedEntry (F := F) d.flipped (d.size_array ▸ hp)
    have hentry := hentries i hi j hj
    rwa [hd, he, hplace, hplace] at hentry

theorem beq_iff_equal : d.beq e = true ↔ d.Equal e := by
  by_cases hsize : d.height = e.height ∧ d.width = e.width
  · obtain ⟨hheight, hwidth⟩ := hsize
    rw [beq, if_pos ⟨hheight, hwidth⟩]
    by_cases hflip : d.flipped = e.flipped
    · rw [if_pos hflip, Bool.or_eq_true_iff, array_beq_iff_entry hheight hwidth hflip]
      constructor
      · intro h
        exact ⟨hheight, hwidth, h.imp_left (And.intro hflip)⟩
      · intro h
        exact h.reads.imp_left And.right
    · rw [if_neg hflip, List.all_eq_true]
      constructor
      · intro h
        refine ⟨hheight, hwidth, .inr ?_⟩
        intro i hi j hj
        have hp := h (j * d.height + i) (List.mem_range.mpr (Kernel.columnMajor_lt hi hj))
        rwa [Kernel.columnMajor_mod hi, Kernel.columnMajor_div hi] at hp
      · intro h p hp
        have hp : p < d.height * d.width := List.mem_range.mp hp
        have hentries := h.reads.resolve_left fun hsame => hflip hsame.1
        exact hentries _ (Nat.mod_lt p (Nat.pos_of_mul_pos_right (Nat.zero_lt_of_lt hp))) _
          (Nat.div_lt_of_lt_mul hp)
  · rw [beq, if_neg hsize]
    exact ⟨fun h => absurd h Bool.false_ne_true, fun h => absurd ⟨h.height, h.width⟩ hsize⟩

namespace Equal

theorem symm [PartialEquivBEq F] (h : d.Equal e) : e.Equal d where
  height := h.height.symm
  width := h.width.symm
  reads := by
    refine h.reads.imp (fun hsame => ⟨hsame.1.symm, Stored.sameStorage_symm hsame.2⟩) ?_
    intro hentries i hi j hj
    exact PartialEquivBEq.symm (hentries i (h.height ▸ hi) j (h.width ▸ hj))

theorem transpose (h : d.Equal e) : d.transpose.Equal e.transpose where
  height := by simpa using h.width
  width := by simpa using h.height
  reads := by
    refine h.reads.imp (fun hsame => ⟨congrArg not hsame.1, hsame.2⟩) ?_
    intro hentries i hi j hj
    rw [entry_transpose, entry_transpose]
    exact hentries j (by simpa using hj) i (by simpa using hi)

end Equal

/-- Maps in one storage that read it the same way have the same entries, whatever these are. -/
theorem entry_eq_of_sameStorage {store : List (Payload F)} (hd : (LinearMap.dense d).KeptIn store)
    (he : (LinearMap.dense e).KeptIn store) (hflip : d.flipped = e.flipped)
    (h : d.array.sameStorage e.array = true) (i j : ℕ) : d.entry i j = e.entry i j := by
  have hpayload := Stored.KeptAs.eq_of_sameStorage hd he h
  injection hpayload with hrows _ hvalue
  rw [entry, entry, hflip, hrows, hvalue]

theorem Equal.trans [PartialEquivBEq F] {store : List (Payload F)} (hd : (LinearMap.dense d).KeptIn store)
    (he : (LinearMap.dense e).KeptIn store) (hf : (LinearMap.dense f).KeptIn store) (hde : d.Equal e)
    (hef : e.Equal f) : d.Equal f := by
  refine ⟨hde.height.trans hef.height, hde.width.trans hef.width, ?_⟩
  rcases hde.reads with ⟨hflip, hstored⟩ | hentries
  · rcases hef.reads with ⟨hflip', hstored'⟩ | hentries'
    · exact .inl ⟨hflip.trans hflip', Stored.sameStorage_trans hstored hstored'⟩
    · right
      intro i hi j hj
      rw [entry_eq_of_sameStorage hd he hflip hstored]
      exact hentries' i (hde.height ▸ hi) j (hde.width ▸ hj)
  · right
    intro i hi j hj
    rcases hef.reads with ⟨hflip', hstored'⟩ | hentries'
    · rw [← entry_eq_of_sameStorage he hf hflip' hstored']
      exact hentries i hi j hj
    · exact PartialEquivBEq.trans (hentries i hi j hj) (hentries' i (hde.height ▸ hi) j (hde.width ▸ hj))

end Dense

end Payloads

namespace LinearMap

section Relation
variable {F : Type} [Arith F] {K L M : LinearMap F} {store : List (Payload F)}

/-- Equality, part by part. -/
inductive Equal : LinearMap F → LinearMap F → Prop
  | dense {d e : Dense F} (maps : d.Equal e) : Equal (.dense d) (.dense e)
  | kron {a b c d : LinearMap F} (left : Equal a c) (right : Equal b d) : Equal (.kron a b) (.kron c d)
  | diag {u v : Stored (Array F)} (numbers : u.Agrees v) : Equal (.diag u) (.diag v)
  | scalar (n : ℕ) {s t : Stored F} (number : s.Agrees t) : Equal (.scalar n s) (.scalar n t)

theorem beq_iff_equal : (K == L) = true ↔ K.Equal L := by
  constructor
  · intro h
    induction K generalizing L with
    | dense d =>
      cases L with
      | dense e => exact .dense (Dense.beq_iff_equal.mp h)
      | _ => cases h
    | kron a b iha ihb =>
      cases L with
      | kron c d =>
        obtain ⟨hleft, hright⟩ := Bool.and_eq_true_iff.mp h
        exact .kron (iha hleft) (ihb hright)
      | _ => cases h
    | diag u =>
      cases L with
      | diag v => exact .diag (Bool.or_eq_true_iff.mp h)
      | _ => cases h
    | scalar m s =>
      cases L with
      | scalar n t =>
        obtain ⟨hsize, hnumber⟩ := Bool.and_eq_true_iff.mp h
        obtain rfl : m = n := eq_of_beq hsize
        exact .scalar m (Bool.or_eq_true_iff.mp hnumber)
      | _ => cases h
  · intro h
    induction h with
    | dense maps => exact Dense.beq_iff_equal.mpr maps
    | kron _ _ ihl ihr => exact Bool.and_eq_true_iff.mpr ⟨ihl, ihr⟩
    | diag numbers => exact Bool.or_eq_true_iff.mpr numbers
    | scalar n number => exact Bool.and_eq_true_iff.mpr ⟨BEq.rfl, Bool.or_eq_true_iff.mpr number⟩

namespace Equal

theorem symm [PartialEquivBEq F] (h : K.Equal L) : L.Equal K := by
  induction h with
  | dense maps => exact .dense maps.symm
  | kron _ _ ihl ihr => exact .kron ihl ihr
  | diag numbers => exact .diag numbers.symm
  | scalar n number => exact .scalar n number.symm

theorem transpose (h : K.Equal L) : K.transpose.Equal L.transpose := by
  induction h with
  | dense maps => exact .dense maps.transpose
  | kron _ _ ihl ihr => exact .kron ihl ihr
  | diag numbers => exact .diag numbers
  | scalar n number => exact .scalar n number

theorem trans [PartialEquivBEq F] (hK : K.KeptIn store) (hL : L.KeptIn store) (hM : M.KeptIn store)
    (hKL : K.Equal L) (hLM : L.Equal M) : K.Equal M := by
  induction hKL generalizing M with
  | dense maps =>
    cases hLM with
    | dense maps' => exact .dense (maps.trans hK hL hM maps')
  | kron _ _ ihl ihr =>
    cases hLM with
    | kron left right => exact .kron (ihl hK.1 hL.1 hM.1 left) (ihr hK.2 hL.2 hM.2 right)
  | diag numbers =>
    cases hLM with
    | diag numbers' =>
      refine .diag (numbers.trans numbers' (fun h => ?_) fun h => ?_)
      · injection Stored.KeptAs.eq_of_sameStorage hK hL h
      · injection Stored.KeptAs.eq_of_sameStorage hL hM h
  | scalar n number =>
    cases hLM with
    | scalar _ number' =>
      refine .scalar n (number.trans number' (fun h => ?_) fun h => ?_)
      · injection Stored.KeptAs.eq_of_sameStorage hK hL h
      · injection Stored.KeptAs.eq_of_sameStorage hL hM h

theorem sameShape (hK : K.KeptIn store) (hL : L.KeptIn store) (h : K.Equal L) : SameShape K L := by
  induction h with
  | dense maps => exact .dense maps.height maps.width
  | kron _ _ ihl ihr => exact .kron (ihl hK.1 hL.1) (ihr hK.2 hL.2)
  | @diag u v numbers =>
    rcases numbers with hstored | hvalue
    · injection Stored.KeptAs.eq_of_sameStorage hK hL hstored with hvalue
      exact .diag (congrArg Array.size hvalue)
    · exact .diag (array_beq_iff.mp hvalue).1
  | scalar n _ => exact .scalar n _ _

section Exact
variable (hexact : ∀ x y : F, (x == y) = true → x = y)
include hexact

/-- Where equal numbers are the same, equal maps have the same entries. -/
theorem entry_eq (hK : K.KeptIn store) (hL : L.KeptIn store) (h : K.Equal L) {i j : ℕ} (hi : i < K.rows)
    (hj : j < K.cols) : K.entry i j = L.entry i j := by
  induction h generalizing i j with
  | dense maps =>
    rcases maps.reads with ⟨hflip, hstored⟩ | hentries
    · exact Dense.entry_eq_of_sameStorage hK hL hflip hstored i j
    · exact hexact _ _ (hentries i hi j hj)
  | @kron a b c d left right ihl ihr =>
    have hshape := right.sameShape hK.2 hL.2
    have hrow : i % b.rows < b.rows := Nat.mod_lt i (Nat.pos_of_mul_pos_left (Nat.zero_lt_of_lt hi))
    have hcol : j % b.cols < b.cols := Nat.mod_lt j (Nat.pos_of_mul_pos_left (Nat.zero_lt_of_lt hj))
    rw [entry, entry, ← hshape.rows_eq, ← hshape.cols_eq, ihr hK.2 hL.2 hrow hcol,
      ihl hK.1 hL.1 (Nat.div_lt_of_lt_mul (Nat.mul_comm _ _ ▸ hi)) (Nat.div_lt_of_lt_mul (Nat.mul_comm _ _ ▸ hj))]
  | @diag u v numbers =>
    have hvalue : u.value = v.value := by
      rcases numbers with hstored | hvalue
      · injection Stored.KeptAs.eq_of_sameStorage hK hL hstored
      · exact array_eq_of_beq hexact hvalue
    rw [entry, entry, hvalue]
  | @scalar n s t number =>
    have hvalue : s.value = t.value := by
      rcases number with hstored | hvalue
      · injection Stored.KeptAs.eq_of_sameStorage hK hL hstored
      · exact hexact _ _ hvalue
    rw [entry, entry, hvalue]

theorem toColumnMajor_eq (hK : K.KeptIn store) (hL : L.KeptIn store) (h : K.Equal L) :
    K.toColumnMajor = L.toColumnMajor := by
  have hshape := h.sameShape hK hL
  have hentries : K.entries = L.entries := by
    rw [entries, entries, ← hshape.rows_eq, ← hshape.cols_eq]
    refine tabulate_congr fun p hp => ?_
    have hrow : p % K.rows < K.rows := Nat.mod_lt p (Nat.pos_of_mul_pos_right (Nat.zero_lt_of_lt hp))
    exact h.entry_eq hexact hK hL hrow (Nat.div_lt_of_lt_mul hp)
  rw [toColumnMajor, toColumnMajor, hentries, if_congr hshape.writable_iff rfl rfl]

end Exact

end Equal

end Relation

section Regular
variable {F : Type} [Arith F] {K L : LinearMap F}

/-- Every number that is stored is equal to itself. -/
def Regular : LinearMap F → Prop
  | dense d => ∀ x ∈ d.array.value, (x == x) = true
  | kron a b => a.Regular ∧ b.Regular
  | diag d => ∀ x ∈ d.value, (x == x) = true
  | scalar _ alpha => (alpha.value == alpha.value) = true

instance decidableRegular : (K : LinearMap F) → Decidable K.Regular
  | dense d => inferInstanceAs (Decidable (∀ x ∈ d.array.value, (x == x) = true))
  | kron a b =>
    have := decidableRegular a
    have := decidableRegular b
    inferInstanceAs (Decidable (a.Regular ∧ b.Regular))
  | diag d => inferInstanceAs (Decidable (∀ x ∈ d.value, (x == x) = true))
  | scalar _ alpha => inferInstanceAs (Decidable ((alpha.value == alpha.value) = true))

theorem array_beq_self {a : Array F} (h : ∀ x ∈ a, (x == x) = true) : (a == a) = true := by
  refine array_beq_iff.mpr ⟨rfl, fun i hi => ?_⟩
  rw [coord_of_lt hi]
  exact h _ (Array.getElem_mem hi)

theorem Dense.equal_of_unmarked_eq {d e : Dense F} (h : e.unmarked = d.unmarked)
    (hd : ∀ x ∈ d.array.value, (x == x) = true) : e.Equal d := by
  have hflip : e.flipped = d.flipped := (congrArg Dense.flipped h :)
  have hheight : e.height = d.height := (congrArg Dense.height h :)
  have hwidth : e.width = d.width := (congrArg Dense.width h :)
  have hvalue : e.array.value = d.array.value := (congrArg (·.array.value) h :)
  have hbeq : (e.array.value == d.array.value) = true := by
    rw [hvalue]
    exact array_beq_self hd
  exact ⟨hheight, hwidth, .inr ((Dense.array_beq_iff_entry hheight hwidth hflip).mp hbeq)⟩

/-- Maps that store the same numbers the same way are equal without regard to storage. -/
theorem Regular.beq_of_unmarked_eq (hK : K.Regular) (h : L.unmarked = K.unmarked) : (L == K) = true := by
  refine beq_iff_equal.mpr ?_
  induction K generalizing L with
  | dense d =>
    cases L with
    | dense e => exact .dense (Dense.equal_of_unmarked_eq (LinearMap.dense.inj h) hK)
    | _ => cases h
  | kron a b iha ihb =>
    cases L with
    | kron c d =>
      obtain ⟨hleft, hright⟩ := LinearMap.kron.inj h
      exact .kron (iha hK.1 hleft) (ihb hK.2 hright)
    | _ => cases h
  | diag u =>
    cases L with
    | diag v => exact .diag (Stored.agrees_of_unmarked_eq (LinearMap.diag.inj h) (array_beq_self hK))
    | _ => cases h
  | scalar n s =>
    cases L with
    | scalar m t =>
      obtain ⟨rfl, hstored⟩ := LinearMap.scalar.inj h
      exact .scalar m (Stored.agrees_of_unmarked_eq hstored hK)
    | _ => cases h

end Regular

section Main
variable {F : Type} [Scalar F] [PartialEquivBEq F]

/-- Equality is an equivalence on the maps that a program has kept, although a number may differ from itself. Equal maps
have one kind and one size, and equal transposes; where equal numbers are the same, they write out as the same array. -/
theorem Held.equality {kept : List (LinearMap F)} {next : ℕ} (h : Held kept next) :
    (∀ K ∈ kept, (K == K) = true) ∧
    (∀ K ∈ kept, ∀ L ∈ kept, (K == L) = true → (L == K) = true) ∧
    (∀ K ∈ kept, ∀ L ∈ kept, ∀ M ∈ kept, (K == L) = true → (L == M) = true → (K == M) = true) ∧
    ∀ K ∈ kept, ∀ L ∈ kept, (K == L) = true →
      K.kind = L.kind ∧ K.size = L.size ∧ (K.transpose == L.transpose) = true ∧
      ((∀ x y : F, (x == y) = true → x = y) → K.toColumnMajor = L.toColumnMajor) := by
  obtain ⟨store, -, hstore⟩ := h.exists_store
  have hkept : ∀ K ∈ kept, K.KeptIn store := fun K hK => (hstore K hK).1
  refine ⟨fun K hK => beq_self (hstore K hK).2, ?symm, ?trans, ?congr⟩
  case symm =>
    intro K _ L _ hKL
    exact beq_iff_equal.mpr (beq_iff_equal.mp hKL).symm
  case trans =>
    intro K hK L hL M hM hKL hLM
    have hequal := (beq_iff_equal.mp hKL).trans (hkept K hK) (hkept L hL) (hkept M hM) (beq_iff_equal.mp hLM)
    exact beq_iff_equal.mpr hequal
  case congr =>
    intro K hK L hL hKL
    have hequal : K.Equal L := beq_iff_equal.mp hKL
    have hshape : SameShape K L := hequal.sameShape (hkept K hK) (hkept L hL)
    have htranspose : (K.transpose == L.transpose) = true := beq_iff_equal.mpr hequal.transpose
    refine ⟨hshape.kind_eq, hshape.size_eq, htranspose, ?_⟩
    intro hexact
    exact hequal.toColumnMajor_eq hexact (hkept K hK) (hkept L hL)

end Main

section Witness
open BlockMatrix (Gapped)

theorem gapped_eq_of_beq {x y : Gapped} (h : (x == y) = true) : x = y := by
  cases x with
  | nan => cases h
  | int a =>
    cases y with
    | nan => cases h
    | int b =>
      have hab : (a == b) = true := h
      exact congrArg Gapped.int (beq_iff_eq.mp hab)

instance partialEquivBEqGapped : PartialEquivBEq Gapped where
  symm h := by
    obtain rfl := gapped_eq_of_beq h
    exact h
  trans hxy hyz := by
    obtain rfl := gapped_eq_of_beq hxy
    exact hyz

/-- A column with a gap. -/
def gappedColumn : LinearMap Gapped := ((ofEntries 2 1 fun i _ => if i = 0 then .nan else .int 5).share 0).1

def wide : LinearMap Gapped := ((ofEntries 2 3 fun i j => .int (3 * i + j)).share 1).1

/-- The transpose of the wide map, written out. -/
def wideTransposed : LinearMap Gapped := ofEntries 3 2 fun i j => .int (3 * j + i)

def flaggedProduct : LinearMap Gapped := .kron gappedColumn.transpose wide.transpose

def writtenProduct (next : ℕ) : LinearMap Gapped :=
  ((LinearMap.kron gappedColumn.transpose wideTransposed).share next).1

theorem held_writtenProduct :
    Held [writtenProduct 3, writtenProduct 2, flaggedProduct, wide, gappedColumn] 4 := by
  have hcolumn : Held [gappedColumn] 1 := Held.start.keep (.ofEntries _ (by decide))
  have hwide : Held [wide, gappedColumn] 2 := hcolumn.keep (.ofEntries _ (by decide))
  have hleft : ∀ {kept}, gappedColumn ∈ kept → Made kept gappedColumn.transpose := fun h => .transpose (.kept h)
  have hright : ∀ {kept}, Made kept wideTransposed := .ofEntries _ (by decide)
  have hflagged : Held [flaggedProduct, wide, gappedColumn] 2 :=
    hwide.keep ((hleft (by simp)).kron (.transpose (.kept (List.mem_cons_self))))
  have hwritten : Held [writtenProduct 2, flaggedProduct, wide, gappedColumn] 3 :=
    hflagged.keep ((hleft (by simp)).kron hright)
  exact hwritten.keep ((hleft (by simp)).kron hright)

theorem flaggedProduct_equality :
    (flaggedProduct == flaggedProduct) = true ∧ (flaggedProduct == writtenProduct 2) = true ∧
    (writtenProduct 2 == flaggedProduct) = true ∧ (flaggedProduct == writtenProduct 3) = true ∧
    flaggedProduct.kind = (writtenProduct 2).kind ∧ flaggedProduct.size = (writtenProduct 2).size ∧
    (flaggedProduct.transpose == (writtenProduct 2).transpose) = true ∧
    flaggedProduct.toColumnMajor = (writtenProduct 2).toColumnMajor := by
  obtain ⟨hrefl, hsymm, htrans, hcongr⟩ := held_writtenProduct.equality
  have hfirst : (flaggedProduct == writtenProduct 2) = true := by decide +kernel
  have hsecond : (writtenProduct 2 == writtenProduct 3) = true := by decide +kernel
  obtain ⟨hkind, hsize, htranspose, harray⟩ :=
    hcongr flaggedProduct (by simp) (writtenProduct 2) (by simp) hfirst
  have hlast : (flaggedProduct == writtenProduct 3) = true :=
    htrans _ (by simp) (writtenProduct 2) (by simp) _ (by simp) hfirst hsecond
  exact ⟨hrefl _ (by simp), hfirst, hsymm _ (by simp) _ (by simp) hfirst, hlast, hkind, hsize, htranspose,
    harray fun _ _ => gapped_eq_of_beq⟩

end Witness

end LinearMap

end BlockElimination
