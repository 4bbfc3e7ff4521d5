import BlockElimination.Proofs.BlockMatrix.Looks
import BlockElimination.Proofs.LinearMap.Upright

/-!
# Matrices with the same contents

Two matrices have the same contents if their blocks are alike, place by place. Products, transposes and sums keep it so.
What is known of each block on its own can be carried along: it is asked of the factors where blocks meet, and it has to
pass from summands to their sum.
-/
namespace BlockElimination

theorem LinearMap.Alike.look_eq {F : Type} [Arith F] {K K' : LinearMap F} (h : K.Alike K') : K'.look = K.look :=
  look_eq_iff.mpr ⟨h.kind_eq, h.rows_eq, h.cols_eq⟩

namespace BlockMatrix

variable {F : Type} {A A' B B' : BlockMatrix F} {p p' q q' r r' : String → String → LinearMap F → Prop}

/-- The blocks are alike, and `p` is known of the one and `p'` of the other. -/
structure AlikeWith [Arith F] (p p' : String → String → LinearMap F → Prop) (i j : String) (K K' : LinearMap F) :
    Prop where
  alike : K.Alike K'
  left : p i j K
  right : p' i j K'

/-- The matrices have blocks at the same places, and these are alike. -/
def SameContents [Arith F] (A A' : BlockMatrix F) : Prop := Agrees (fun _ _ => LinearMap.Alike) A A'

/-- What is known of two summands is known of their sum. -/
def PassesToSums [Arith F] (p : String → String → LinearMap F → Prop) : Prop :=
  ∀ ⦃i j K L P⦄, p i j K → p i j L → K.add L = .ok P → p i j P

variable [Arith F]

namespace Agrees

variable {R S T : String → String → LinearMap F → LinearMap F → Prop}

omit [Arith F] in
theorem refl (hR : ∀ i j K, A.get? i j = some K → R i j K K) : Agrees R A A :=
  ⟨rfl, fun hK hK' => Option.some.inj (hK.symm.trans hK') ▸ hR _ _ _ hK⟩

theorem sumClosed_alike : SumClosed fun (_ _ : String) => LinearMap.Alike (F := F) :=
  fun _ _ _ _ _ _ _ _ hK hL hP hP' => Except.ok.inj (hP.symm.trans ((hK.add_eq hL).symm.trans hP')) ▸ .refl _

theorem sumClosed_alikeWith (hp : PassesToSums p) (hp' : PassesToSums p') : SumClosed (AlikeWith p p') :=
  fun i j _ _ _ _ _ _ hK hL hP hP' =>
    ⟨@sumClosed_alike F _ i j _ _ _ _ _ _ hK.alike hL.alike hP hP', hp hK.left hL.left hP, hp' hK.right hL.right hP'⟩

theorem sameContents (h : Agrees (AlikeWith p p') A A') : A.SameContents A' := h.mono fun _ _ hK => hK.alike

/-- Two pairs of blocks that meet at one place. -/
structure Met (S T : String → String → LinearMap F → LinearMap F → Prop)
    (t t' : (String × String × String) × LinearMap F × LinearMap F) : Prop where
  place_eq : t'.1 = t.1
  left : S t.1.1 t.1.2.1 t.2.1 t'.2.1
  right : T t.1.2.1 t.1.2.2 t.2.2 t'.2.2

omit [Arith F] in
theorem forall₂_meetings (hA : Agrees S A A') (hB : Agrees T B B') :
    List.Forall₂ (Met S T) (meetings A B) (meetings A' B') := by
  have hmeetings : ∀ C D : BlockMatrix F, meetings C D = D.blocks.flatMap fun t =>
      ((C.column? t.1).getD ∅).entries.map fun s => ((s.1, t.1, t.2.1), s.2, t.2.2) := fun C D => by
    refine List.flatMap_congr fun ⟨k, j, b⟩ _ => ?_
    cases hc : C.column? k <;> simp [hc]
  rw [hmeetings, hmeetings]
  refine List.rel_flatMap hB.forall₂_blocks ?_
  rintro ⟨k, j, b⟩ ⟨_, _, b'⟩ ⟨rfl, rfl, -, hb⟩
  refine List.rel_map ?_ (hA.forall₂_column _)
  rintro ⟨i, a⟩ ⟨_, a'⟩ ⟨rfl, -, ha⟩
  exact ⟨rfl, ha, hb⟩

theorem mirrors_mul {ε : Type} (hA : Agrees (AlikeWith p p') A A') (hB : Agrees (AlikeWith q q') B B')
    (hr : PassesToSums r) (hr' : PassesToSums r')
    (hmul : ∀ {i k j a b P}, p i k a → q k j b → a.mul b = .ok P → r i j P)
    (hmul' : ∀ {i k j a b P}, p' i k a → q' k j b → a.mul b = .ok P → r' i j P) :
    (A.mul B : Outcome ε (BlockMatrix F)).Mirrors (A'.mul B') (Agrees (AlikeWith r r')) := by
  refine Outcome.Mirrors.foldlM (hA.forall₂_meetings hB) ?_ .empty
  rintro C C' hC ⟨⟨i, k, j⟩, a, b⟩ ⟨_, a', b'⟩ ⟨rfl, ha, hb⟩
  refine Outcome.Mirrors.report_bind ?_
  have hproducts : Mirrors (a.mul b) (a'.mul b') fun P P' => P.Alike P' ∧ a.mul b = .ok P ∧ a'.mul b' = .ok P' :=
    (ha.alike.parallel_mul hb.alike).mirrors.and (fun _ hP => hP) fun _ hP => hP
  refine (Outcome.Mirrors.lift hproducts).bind fun P P' ⟨hP, heq, heq'⟩ => ?_
  have hblock : AlikeWith r r' i j P P' := ⟨hP, hmul ha.left hb.left heq, hmul' ha.right hb.right heq'⟩
  exact .lift (hC.mirrors_insertOrAdd (sumClosed_alikeWith hr hr') hP.look_eq hblock)

theorem mirrors_transpose (hA : Agrees (AlikeWith p p') A A') (hq : PassesToSums q) (hq' : PassesToSums q')
    (htranspose : ∀ {i j a}, p i j a → q j i a.transpose) (htranspose' : ∀ {i j a}, p' i j a → q' j i a.transpose) :
    Mirrors A.transpose A'.transpose (Agrees (AlikeWith q q')) := by
  refine Agrees.empty.mirrors_insertAll (sumClosed_alikeWith hq hq') (List.rel_map ?_ hA.forall₂_blocks)
  rintro ⟨_, _, K⟩ ⟨i, j, K'⟩ ⟨rfl, rfl, -, hK⟩
  have hblock : AlikeWith q q' j i K.transpose K'.transpose :=
    ⟨hK.alike.transpose, htranspose hK.left, htranspose' hK.right⟩
  exact ⟨rfl, rfl, hblock.alike.look_eq, hblock⟩

end Agrees

namespace SameContents

theorem mirrors_transpose (h : A.SameContents A') : Mirrors A.transpose A'.transpose SameContents := by
  have hwith : Agrees (AlikeWith (fun _ _ _ => True) fun _ _ _ => True) A A' :=
    h.mono fun _ _ hK => ⟨hK, trivial, trivial⟩
  have htransposed : Mirrors A.transpose A'.transpose (Agrees (AlikeWith (fun _ _ _ => True) fun _ _ _ => True)) :=
    hwith.mirrors_transpose (fun _ _ _ _ _ _ _ _ => trivial) (fun _ _ _ _ _ _ _ _ => trivial) id id
  exact htransposed.mono fun _ _ => Agrees.sameContents

theorem mirrors_add (hA : A.SameContents A') (hB : B.SameContents B') : Mirrors (A.add B) (A'.add B') SameContents :=
  hA.mirrors_addScaled Agrees.sumClosed_alike hB 1 fun hK => hK.scale 1

end SameContents

end BlockMatrix

end BlockElimination
