import BlockElimination.Proofs.LinearMap.Alike
import BlockElimination.Proofs.LinearMap.Product
import BlockElimination.Proofs.LinearMap.Sums

/-!
# Which way round a map is stored

Inversion takes a dense map to be symmetric and reads the lower triangle of its array, so it tells a map from its copy
if that is stored the other way round and they are not symmetric. No other operation does. What is computed anew is
upright, and only a multiple takes over how its operand is stored.
-/
namespace BlockElimination

section Inversion
variable {F : Type} [Scalar F] {d e : Dense F}

/-- The matrix is symmetric, bit by bit. -/
def Dense.Symmetric (d : Dense F) : Prop :=
  d.height = d.width ∧ ∀ i < d.height, ∀ j < d.height, d.entry i j = d.entry j i

/-- The array of a square map, read as it lies. -/
theorem Dense.storedEntry_eq (hsquare : d.height = d.width) (i j : ℕ) :
    Kernel.storedEntry false d.height d.array.value i j = if d.flipped then d.entry j i else d.entry i j := by
  cases hflip : d.flipped with
  | false => simp [entry, height, Kernel.storedEntry, hflip]
  | true => simp [hsquare, entry, width, Kernel.storedEntry, hflip]

theorem Dense.Symmetric.storedEntry_eq (h : d.Symmetric) {i j : ℕ} (hi : i < d.height) (hj : j < d.height) :
    Kernel.storedEntry false d.height d.array.value i j = d.entry i j := by
  rw [Dense.storedEntry_eq h.1, h.2 j hj i hi, ite_self]

theorem Dense.Alike.symmetric (h : d.Alike e) (hd : d.Symmetric) : e.Symmetric := by
  obtain ⟨hsquare, hsymm⟩ := hd
  refine ⟨by rw [← h.height, ← h.width, hsquare], fun i hi j hj => ?_⟩
  rw [← h.height] at hi hj
  rw [← h.entry i hi j (hsquare ▸ hj), ← h.entry j hj i (hsquare ▸ hi), hsymm i hi j hj]

/-- Square maps that are alike have arrays that are alike, if they are flipped both or not at all, or symmetric. -/
theorem Dense.Alike.sameLower (h : d.Alike e) (hsquare : d.height = d.width)
    (hread : d.flipped = e.flipped ∨ d.Symmetric) : Kernel.SameLower d.height d.array.value e.array.value := by
  intro i hi j hji
  have hj : j < d.height := hji.trans_lt hi
  have hentry := h.entry i hi j (hsquare ▸ hj)
  rcases hread with hflip | hsymm
  · have hsquare' : e.height = e.width := by rw [← h.height, ← h.width, hsquare]
    rw [Dense.storedEntry_eq hsquare, h.height, Dense.storedEntry_eq hsquare', hflip, hentry,
      h.entry j hj i (hsquare ▸ hi)]
  · rw [hsymm.storedEntry_eq hi hj, hentry, h.height, (h.symmetric hsymm).storedEntry_eq (h.height ▸ hi) (h.height ▸ hj)]

theorem Dense.Alike.inverse_eq (h : d.Alike e) (hread : d.flipped = e.flipped ∨ d.Symmetric) (eps : F) :
    e.inverse eps = d.inverse eps := by
  by_cases hsquare : d.height = d.width
  · exact Dense.inverse_eq_of_sameLower hsquare h.height.symm h.width.symm (h.sameLower hsquare hread) eps
  · rw [Dense.inverse, Dense.inverse, ← h.height, ← h.width, if_neg hsquare, if_neg hsquare]

end Inversion

namespace LinearMap

section Pivots
variable {F : Type} [Scalar F] {K K' : LinearMap F}

/-- The maps are alike, and inversion reads the same of them: each of their dense parts is flipped in both or in
neither, or else it is symmetric. -/
inductive SamePivot : LinearMap F → LinearMap F → Prop
  | dense {d e : Dense F} : d.Alike e → d.flipped = e.flipped ∨ d.Symmetric → SamePivot (dense d) (dense e)
  | kron {a a' b b' : LinearMap F} : SamePivot a a' → SamePivot b b' → SamePivot (kron a b) (kron a' b')
  | diag {u v : Stored (Array F)} : u.value = v.value → SamePivot (diag u) (diag v)
  | scalar (n : ℕ) {s t : Stored F} : s.value = t.value → SamePivot (scalar n s) (scalar n t)

namespace SamePivot

theorem refl (K : LinearMap F) : K.SamePivot K := by
  induction K with
  | dense d => exact .dense (.refl d) (.inl rfl)
  | kron a b iha ihb => exact .kron iha ihb
  | diag d => exact .diag rfl
  | scalar n alpha => exact .scalar n rfl

theorem alike (h : K.SamePivot K') : K.Alike K' := by
  induction h with
  | dense h _ => exact .dense h
  | kron _ _ iha ihb => exact .kron iha ihb
  | diag h => exact .diag h
  | scalar n h => exact .scalar n h

theorem inverse_eq (h : K.SamePivot K') (eps : F) : K'.inverse eps = K.inverse eps := by
  have hreport : ∀ {K K' : LinearMap F}, K.Alike K' → ∀ o, reportInversion K' o = reportInversion K o :=
    fun h o => by simp only [reportInversion, h.size_eq, h.kind_eq]
  induction h with
  | dense h hread => rw [inverse, inverse, h.inverse_eq hread, hreport (.dense h)]
  | kron ha hb iha ihb =>
    have hkron := (SamePivot.kron ha hb).alike
    simp only [inverse, hreport hkron, iha, ihb, inverseKron, hkron.size_eq]
  | diag h => rw [inverse, inverse, h, hreport (.diag h)]
  | scalar n h => rw [inverse, inverse, h, hreport (.scalar n h)]

end SamePivot

end Pivots

section Upright
variable {F : Type} {K L P : LinearMap F}

/-- No dense part is flipped. -/
def Upright : LinearMap F → Prop
  | dense d => d.flipped = false
  | kron a b => a.Upright ∧ b.Upright
  | _ => True

theorem SamePivot.of_upright [Scalar F] {K K' : LinearMap F} (h : K.Alike K') (hK : K.Upright) (hK' : K'.Upright) :
    K.SamePivot K' := by
  induction h with
  | dense h => exact .dense h (.inl (Eq.trans hK (Eq.symm hK')))
  | kron _ _ iha ihb => exact .kron (iha hK.1 hK'.1) (ihb hK.2 hK'.2)
  | diag h => exact .diag h
  | scalar n h => exact .scalar n h

/-- The product of the maps is upright, whatever is computed for it: only a multiple takes over how it is stored. -/
def UprightProduct : LinearMap F → LinearMap F → Prop
  | scalar _ _, L => L.Upright
  | K, scalar _ _ => K.Upright
  | kron a b, kron c d => a.UprightProduct c ∧ b.UprightProduct d
  | _, _ => True

theorem uprightProduct_scalar (hK : K.Upright) (n : ℕ) (s : Stored F) : K.UprightProduct (scalar n s) := by
  cases K <;> exact hK

/-- Only multiples and Kronecker products have something to ask. -/
theorem uprightProduct_left (hK : K.kind ≠ .kron) (hscalar : K.kind = .scalar → L.Upright) (h : K.Upright) :
    K.UprightProduct L := by
  cases K with
  | kron a b => exact absurd rfl hK
  | scalar n s => exact hscalar rfl
  | _ => cases L <;> first | exact h | trivial

theorem uprightProduct_right (hL : L.kind ≠ .kron) (hscalar : L.kind = .scalar → K.Upright) (h : L.Upright) :
    K.UprightProduct L := by
  cases L with
  | kron c d => exact absurd rfl hL
  | scalar n s => exact uprightProduct_scalar (hscalar rfl) n s
  | _ => cases K <;> first | exact h | trivial

theorem UprightProduct.right_of_scalar (h : K.UprightProduct L) (hK : K.kind = .scalar) : L.Upright := by
  cases K with
  | scalar n s => exact h
  | _ => cases hK

theorem UprightProduct.left_of_scalar (h : K.UprightProduct L) (hL : L.kind = .scalar) : K.Upright := by
  cases L with
  | scalar n s => cases K <;> exact h
  | _ => cases hL

variable [Arith F] {M : LinearMap F} {m k n : ℕ}

theorem upright_scale (h : K.Upright) (alpha : F) : (K.scale alpha).Upright := by
  induction K with
  | kron a b iha _ => exact ⟨iha h.1, h.2⟩
  | _ => exact h

theorem Sized.yields_upright_denseProduct (hK : K.Sized m k) (hL : L.Sized k n) : Yields (K.denseProduct L) Upright := by
  apply hK.denseProduct_cases hL
  · exact fun _ => rfl
  · exact fun _ _ _ _ => rfl
  · rfl
  · rfl

theorem upright_of_add (h : K.add L = .ok P) : P.Upright := by
  have hsum : Yields (K.add L) Upright := by
    apply Sized.add_cases ⟨rfl, rfl⟩ (ensures_add K L P h).1
    · exact fun _ _ _ _ _ => trivial
    · exact fun _ _ _ _ _ _ => trivial
    · exact fun _ => rfl
  exact hsum.of_eq_ok h

theorem kind_of_add (h : K.add L = .ok P) : P.kind = K.kind.ofSum L.kind :=
  (Sized.yields_kind_add ⟨rfl, rfl⟩ (ensures_add K L P h).1).of_eq_ok h

theorem UprightProduct.add_left (h : K.UprightProduct L) (hP : K.add M = .ok P) : P.UprightProduct L := by
  have hkind := kind_of_add hP
  refine uprightProduct_left (hkind ▸ ofSum_ne_kron _ _) (fun hscalar => h.right_of_scalar ?_) (upright_of_add hP)
  exact Kind.ofSum_eq_scalar (hkind.symm.trans hscalar)

theorem UprightProduct.add_right (h : K.UprightProduct L) (hP : L.add M = .ok P) : K.UprightProduct P := by
  have hkind := kind_of_add hP
  refine uprightProduct_right (hkind ▸ ofSum_ne_kron _ _) (fun hscalar => h.left_of_scalar ?_) (upright_of_add hP)
  exact Kind.ofSum_eq_scalar (hkind.symm.trans hscalar)

theorem rows_of_mul (h : K.mul L = .ok P) : L.rows = K.cols := by
  by_contra hne
  rcases mul_of_cols_ne_rows (Ne.symm hne) with hfault | hfault <;> cases h.symm.trans hfault

/-- A product, given those of the factors where two Kronecker products meet. -/
theorem UprightProduct.yields_mul_of_factors (h : K.UprightProduct L) (hK : K.Sized m k) (hL : L.Sized k n)
    (factors : ∀ a b c d, K = kron a b → L = kron c d → Chains a b c d →
      Yields (a.mul c) Upright ∧ Yields (b.mul d) Upright) : Yields (K.mul L) Upright := by
  apply hK.mul_cases hL
  · rintro s rfl -
    exact upright_scale (h.right_of_scalar rfl) _
  · rintro s rfl -
    exact upright_scale (h.left_of_scalar rfl) _
  · exact fun _ _ _ _ _ _ _ => trivial
  · rintro a b c d rfl rfl hchains
    obtain ⟨hP, hQ⟩ := factors a b c d rfl rfl hchains
    exact hP.bind fun P hP => hQ.bind fun Q hQ => Yields.pure_iff.mpr ⟨hP, hQ⟩
  · exact fun _ => hK.yields_upright_denseProduct hL

theorem UprightProduct.yields_mul (h : K.UprightProduct L) (hK : K.Sized m k) (hL : L.Sized k n) :
    Yields (K.mul L) Upright := by
  induction K generalizing L m k n with
  | kron a b iha ihb =>
    refine h.yields_mul_of_factors hK hL ?_
    rintro _ _ c d ⟨⟩ rfl ⟨hac, hbd⟩
    exact ⟨iha h.1 ⟨rfl, rfl⟩ ⟨hac.symm, rfl⟩, ihb h.2 ⟨rfl, rfl⟩ ⟨hbd.symm, rfl⟩⟩
  | _ => exact h.yields_mul_of_factors hK hL fun _ _ _ _ hK => nomatch hK

/-- A multiple of a map is stored as the map is, so it meets the transposed map without turning it. -/
theorem uprightProduct_scale_transpose (K : LinearMap F) (alpha : F) :
    (K.scale alpha).UprightProduct K.transpose ∧ K.UprightProduct K.transpose := by
  induction K with
  | kron a b iha ihb => exact ⟨⟨iha.1, ihb.2⟩, iha.2, ihb.2⟩
  | _ => exact ⟨trivial, trivial⟩

theorem yields_uprightProduct_of_factors (hK : K.Sized m k) (hL : L.Sized k n) (h : L.Upright)
    (factors : ∀ a b c d, K = kron a b → L = kron c d → Chains a b c d →
      Yields (a.mul c) (·.UprightProduct a.transpose) ∧ Yields (b.mul d) (·.UprightProduct b.transpose)) :
    Yields (K.mul L) (·.UprightProduct K.transpose) := by
  apply hK.mul_cases hL
  · rintro s rfl -
    exact uprightProduct_scalar (upright_scale h _) m s
  · exact fun s _ _ => (uprightProduct_scale_transpose K _).1
  · rintro u v rfl - - - -
    trivial
  · rintro a b c d rfl rfl hchains
    obtain ⟨hP, hQ⟩ := factors a b c d rfl rfl hchains
    exact hP.bind fun P hP => hQ.bind fun Q hQ => Yields.pure_iff.mpr ⟨hP, hQ⟩
  · intro _
    refine ((hK.yields_upright_denseProduct hL).and (ensures_kind_denseProduct K L)).mono fun P hP => ?_
    exact uprightProduct_left (by simp [hP.2]) (by simp [hP.2]) hP.1

/-- `V D⁻¹ Vᵀ` is upright if `D⁻¹` is, although `V` need not be. -/
theorem yields_uprightProduct (hK : K.Sized m k) (hL : L.Sized k n) (h : L.Upright) :
    Yields (K.mul L) (·.UprightProduct K.transpose) := by
  induction K generalizing L m k n with
  | kron a b iha ihb =>
    refine yields_uprightProduct_of_factors hK hL h ?_
    rintro _ _ c d ⟨⟩ rfl ⟨hac, hbd⟩
    exact ⟨iha ⟨rfl, rfl⟩ ⟨hac.symm, rfl⟩ h.1, ihb ⟨rfl, rfl⟩ ⟨hbd.symm, rfl⟩ h.2⟩
  | _ => exact yields_uprightProduct_of_factors hK hL h fun _ _ _ _ hK => nomatch hK

theorem UprightProduct.of_mul (h : L.Upright) (hP : K.mul L = .ok P) : P.UprightProduct K.transpose :=
  (yields_uprightProduct ⟨rfl, rfl⟩ ⟨rows_of_mul hP, rfl⟩ h).of_eq_ok hP

theorem UprightProduct.upright_of_mul (h : K.UprightProduct L) (hP : K.mul L = .ok P) : P.Upright :=
  (h.yields_mul ⟨rfl, rfl⟩ ⟨rows_of_mul hP, rfl⟩).of_eq_ok hP

end Upright

theorem upright_of_inverse {F : Type} [Scalar F] {eps : F} {K J : LinearMap F} (h : (K.inverse eps).result = .ok J) :
    J.Upright :=
  inverse_induction (fun _ _ => rfl) (fun _ _ hP hQ => ⟨hP, hQ⟩) (fun _ => trivial) (fun _ _ => trivial) h

end LinearMap

end BlockElimination
