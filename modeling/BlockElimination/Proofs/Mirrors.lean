import BlockElimination.Proofs.Yields

/-!
# Two runs side by side

Two computations are parallel if they have related values or end in one fault. One mirrors another if it has a related
value whenever the other has a value, and only a size that leaves its range may end it early. The rules follow both
computations step by step; what the first has computed so far is at hand at every step.
-/
namespace BlockElimination

variable {α α' β β' : Type}

/-- The computations have related values, or they end in the same fault. -/
def Parallel (R : α → α' → Prop) : Except Fault α → Except Fault α' → Prop
  | .ok a, .ok a' => R a a'
  | .error f, .error f' => f = f'
  | _, _ => False

namespace Parallel

variable {e : Except Fault α} {e' : Except Fault α'} {R : α → α' → Prop}

theorem of_eq {e e' : Except Fault α} {R : α → α → Prop} (h : e = e') (hR : ∀ a, R a a) : Parallel R e e' := by
  subst h
  cases e with
  | ok a => exact hR a
  | error f => rfl

theorem mono {S : α → α' → Prop} (h : Parallel R e e') (hS : ∀ a a', R a a' → S a a') : Parallel S e e' := by
  cases e <;> cases e' <;> first | exact hS _ _ h | exact h

theorem bind {g : α → Except Fault β} {g' : α' → Except Fault β'} {S : β → β' → Prop} (h : Parallel R e e')
    (hg : ∀ a a', R a a' → Parallel S (g a) (g' a')) : Parallel S (e >>= g) (e' >>= g') := by
  cases e with
  | ok a =>
    cases e' with
    | ok a' => exact hg a a' h
    | error f' => exact h.elim
  | error f =>
    cases e' with
    | ok a' => exact h.elim
    | error f' => exact h

/-- What both computations do alike is passed over, and its value may be used. -/
theorem bind_same {g : α → Except Fault β} {g' : α → Except Fault β'} {S : β → β' → Prop}
    (h : ∀ a, e = .ok a → Parallel S (g a) (g' a)) : Parallel S (e >>= g) (e >>= g') := by
  cases e with
  | ok a => exact h a rfl
  | error f => rfl

theorem bind_eq {g : α → Except Fault β} {g' : α' → Except Fault β} (h : Parallel R e e')
    (hg : ∀ a a', R a a' → g a = g' a') : (e >>= g) = e' >>= g' := by
  have hbind : Parallel (· = ·) (e >>= g) (e' >>= g') := h.bind fun a a' hR => of_eq (hg a a' hR) fun _ => rfl
  cases hb : e >>= g <;> cases hb' : e' >>= g' <;> rw [hb, hb'] at hbind
  · exact congrArg Except.error hbind
  · exact hbind.elim
  · exact hbind.elim
  · exact congrArg Except.ok hbind

end Parallel

/-- Unless a size leaves its range, `e'` has a value related to that of `e`, if there is one. -/
def Mirrors (e : Except Fault α) (e' : Except Fault α') (R : α → α' → Prop) : Prop :=
  ∀ a, e = .ok a → Yields e' (R a)

theorem Parallel.mirrors {e : Except Fault α} {e' : Except Fault α'} {R : α → α' → Prop} (h : Parallel R e e') :
    Mirrors e e' R := by
  rintro a rfl
  cases e' with
  | ok a' => exact h
  | error f' => exact h.elim

namespace Mirrors

theorem of_eq {e e' : Except Fault α} (h : e' = e) : Mirrors e e' (· = ·) := by
  rintro a rfl
  exact h ▸ Yields.ok_iff.mpr rfl

theorem mono {e : Except Fault α} {e' : Except Fault α'} {R S : α → α' → Prop} (h : Mirrors e e' R)
    (hS : ∀ a a', R a a' → S a a') : Mirrors e e' S :=
  fun a ha => (h a ha).mono fun a' hR => hS a a' hR

/-- What either computation ensures on its own is known of the related values. -/
theorem and {e : Except Fault α} {e' : Except Fault α'} {R : α → α' → Prop} {p : α → Prop} {p' : α' → Prop}
    (h : Mirrors e e' R) (hp : Ensures e p) (hp' : Ensures e' p') :
    Mirrors e e' fun a a' => R a a' ∧ p a ∧ p' a' :=
  fun a ha => ((h a ha).and hp').mono fun _ ha' => ⟨ha'.1, hp a ha, ha'.2⟩

theorem pure {a : α} {a' : α'} {R : α → α' → Prop} (h : R a a') : Mirrors (.ok a) (.ok a') R := by
  rintro _ ⟨⟩
  exact h

theorem bind {e : Except Fault α} {e' : Except Fault α'} {g : α → Except Fault β} {g' : α' → Except Fault β'}
    {R : α → α' → Prop} {S : β → β' → Prop} (h : Mirrors e e' R) (hg : ∀ a a', R a a' → Mirrors (g a) (g' a') S) :
    Mirrors (e >>= g) (e' >>= g') S := by
  intro b hb
  obtain ⟨a, ha, hb⟩ := exists_of_bind_eq_ok hb
  exact (h a ha).bind fun a' hR => hg a a' hR b hb

/-- The rule of two loops over lists of related items. -/
theorem foldlM {f : β → α → Except Fault β} {f' : β' → α' → Except Fault β'} {l : List α} {l' : List α'}
    {S : α → α' → Prop} {R : β → β' → Prop} (hl : List.Forall₂ S l l')
    (step : ∀ b b' a a', R b b' → S a a' → Mirrors (f b a) (f' b' a') R) {b : β} {b' : β'} (start : R b b') :
    Mirrors (l.foldlM f b) (l'.foldlM f' b') R := by
  induction hl generalizing b b' with
  | nil => exact Mirrors.pure start
  | cons ha _ ih =>
    rw [List.foldlM_cons, List.foldlM_cons]
    exact (step b b' _ _ start ha).bind fun c c' hR => ih hR

end Mirrors

namespace Outcome

variable {ε : Type}

/-- Unless a size leaves its range, `o'` has a value related to that of `o`, if there is one. -/
def Mirrors (o : Outcome ε α) (o' : Outcome ε α') (R : α → α' → Prop) : Prop :=
  ∀ a, o.result = .ok a → o'.Returns (R a)

namespace Mirrors

variable {o : Outcome ε α} {o' : Outcome ε α'} {R : α → α' → Prop} {S : β → β' → Prop}

theorem of_eq {o o' : Outcome ε α} (h : o' = o) : o.Mirrors o' (· = ·) := by
  rintro a ha
  subst h
  unfold Returns Outcome.Yields
  rw [ha]

theorem pure {a : α} {a' : α'} (h : R a a') : (ok a : Outcome ε α).Mirrors (ok a') R := by
  rintro _ ⟨⟩
  exact h

/-- What the first computation has come to may be used. -/
theorem bind_of_result (h : o.Mirrors o' R) {g : α → Outcome ε β} {g' : α' → Outcome ε β'}
    (hg : ∀ a a', o.result = .ok a → R a a' → (g a).Mirrors (g' a') S) : (o >>= g).Mirrors (o' >>= g') S := by
  intro b hb
  obtain ⟨a, ha, hb⟩ := exists_of_bind_eq_ok hb
  exact (h a ha).bind fun a' hR => hg a a' ha hR b hb

theorem bind (h : o.Mirrors o' R) {g : α → Outcome ε β} {g' : α' → Outcome ε β'}
    (hg : ∀ a a', R a a' → (g a).Mirrors (g' a') S) : (o >>= g).Mirrors (o' >>= g') S :=
  h.bind_of_result fun a a' _ hR => hg a a' hR

/-- What both computations do alike is passed over, and its value may be used. -/
theorem bind_same {o : Outcome ε α} {g : α → Outcome ε β} {g' : α → Outcome ε β'}
    (h : ∀ a, o.result = .ok a → (g a).Mirrors (g' a) S) : (o >>= g).Mirrors (o >>= g') S :=
  (of_eq rfl).bind_of_result fun a _ ha hR => hR ▸ h a ha

theorem report_bind {e e' : Except Fault Event} {g : Unit → Outcome ε α} {g' : Unit → Outcome ε α'}
    (h : (g ()).Mirrors (g' ()) R) : (reportIfTold e >>= g).Mirrors (reportIfTold e' >>= g') R := h

theorem lift {e : Except Fault α} {e' : Except Fault α'} (h : BlockElimination.Mirrors e e' R) :
    (ofExcept e : Outcome ε α).Mirrors (ofExcept e') R := by
  cases e with
  | ok a => exact fun _ ha => Outcome.Yields.lift (Except.ok.inj ha ▸ h a rfl)
  | error f => exact fun _ ha => nomatch ha

theorem and {p : α → Prop} {p' : α' → Prop} (h : o.Mirrors o' R) (hp : o.Ends p (fun _ => True) fun _ => True)
    (hp' : o'.Ends p' (fun _ => True) fun _ => True) : o.Mirrors o' fun a a' => R a a' ∧ p a ∧ p' a' := by
  intro a ha
  have hvalue := Ends.and (h a ha) fun a' ha' => hp'.of_result_eq_ok ha'
  exact Yields.mono hvalue (fun _ ha' => ⟨ha'.2, hp.of_result_eq_ok ha, ha'.1⟩) fun _ hf => hf

theorem foldlM {f : β → α → Outcome ε β} {f' : β' → α' → Outcome ε β'} {l : List α} {l' : List α'}
    (hl : List.Forall₂ R l l') (step : ∀ b b', S b b' → ∀ a a', R a a' → (f b a).Mirrors (f' b' a') S) {b : β}
    {b' : β'} (start : S b b') : (l.foldlM f b).Mirrors (l'.foldlM f' b') S := by
  induction hl generalizing b b' with
  | nil => exact pure start
  | cons ha _ ih =>
    rw [List.foldlM_cons, List.foldlM_cons]
    exact (step b b' start _ _ ha).bind fun c c' hS => ih hS

end Mirrors

end Outcome

end BlockElimination
