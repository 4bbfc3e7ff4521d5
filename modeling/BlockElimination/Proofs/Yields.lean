import BlockElimination.Proofs.Ends
import BlockElimination.Size

/-!
# Results unless sizes leave their range

Every size is checked where it is computed, so an operation on operands that fit each other may still end in an
overflow. `Yields` leaves that one fault open and excludes all others: whatever else happens, there is a value and
it is as stated. The rules below follow the computation step by step.
-/
namespace BlockElimination

variable {α β : Type}

theorem exists_eq_ok {ε : Type} {e : Except ε α} (h : e.toBool = true) : ∃ a, e = .ok a := by
  cases e with
  | ok a => exact ⟨a, rfl⟩
  | error => cases h

/-- How a computation fails can be decided where its values cannot be compared. -/
theorem eq_error_of_map {ε : Type} {e : Except ε α} {s : ε} (h : (e.map fun _ => ()) = .error s) : e = .error s := by
  cases e with
  | ok a => cases h
  | error t => exact congrArg Except.error (Except.error.inj h)

theorem ok_bind (a : α) (g : α → Except Fault β) : (.ok a >>= g) = g a := rfl

theorem error_bind (f : Fault) (g : α → Except Fault β) : (.error f >>= g) = .error f := rfl

theorem exists_of_bind_eq_ok {e : Except Fault α} {g : α → Except Fault β} {b : β} (h : e >>= g = .ok b) :
    ∃ a, e = .ok a ∧ g a = .ok b := by
  cases e with
  | ok a => exact ⟨a, rfl, h⟩
  | error f => cases h

theorem exists_of_mapM_eq_ok {f : α → Except Fault β} {l : List α} {r : List β} (h : l.mapM f = .ok r) :
    ∀ a ∈ l, ∃ b, f a = .ok b := by
  induction l generalizing r with
  | nil => simp
  | cons a l ih =>
    rw [List.mapM_cons] at h
    obtain ⟨b, hb, h⟩ := exists_of_bind_eq_ok h
    obtain ⟨bs, hbs, -⟩ := exists_of_bind_eq_ok h
    exact List.forall_mem_cons.mpr ⟨⟨b, hb⟩, ih hbs⟩

theorem mapM_eq_ok {f : α → Except Fault β} {g : α → β} {l : List α} (h : ∀ a ∈ l, f a = .ok (g a)) :
    l.mapM f = .ok (l.map g) := by
  induction l with
  | nil => rfl
  | cons a l ih =>
    rw [List.mapM_cons, h a List.mem_cons_self, ih fun x hx => h x (List.mem_cons_of_mem a hx)]
    rfl

theorem mapM_eq_error {f : α → Except Fault β} {l : List α} {e : Fault} (hl : l ≠ []) (h : ∀ a ∈ l, f a = .error e) :
    l.mapM f = .error e := by
  cases l with
  | nil => exact absurd rfl hl
  | cons a l =>
    rw [List.mapM_cons, h a List.mem_cons_self]
    rfl

theorem bind_congr_of_eq_ok {e : Except Fault α} {f g : α → Except Fault β}
    (h : ∀ a, e = .ok a → f a = g a) : (e >>= f) = e >>= g := by
  cases e with
  | error _ => rfl
  | ok a => exact h a rfl

theorem mapM_congr {f g : α → Except Fault β} {l : List α} (h : ∀ a ∈ l, f a = g a) :
    l.mapM f = l.mapM g := by
  induction l with
  | nil => rfl
  | cons a l ih =>
    rw [List.mapM_cons, List.mapM_cons, h a List.mem_cons_self, ih fun b hb => h b (List.mem_cons_of_mem a hb)]

theorem eq_map_of_forall₂ {g : α → β} {l : List α} {l' : List β} (h : List.Forall₂ (fun a b => b = g a) l l') :
    l' = l.map g := by
  induction h with
  | nil => rfl
  | cons hb _ ih => rw [hb, ih, List.map_cons]

/-- Unless a size leaves its range, there is a value, and it satisfies `p`. -/
def Yields (e : Except Fault α) (p : α → Prop) : Prop :=
  match e with
  | .ok a => p a
  | .error f => f = .overflow

namespace Yields

@[simp] theorem ok_iff {a : α} {p : α → Prop} : Yields (.ok a) p ↔ p a := Iff.rfl

@[simp] theorem pure_iff {a : α} {p : α → Prop} : Yields (pure a) p ↔ p a := Iff.rfl

@[simp] theorem error_iff {f : Fault} {p : α → Prop} : Yields (.error f) p ↔ f = .overflow := Iff.rfl

theorem mono {e : Except Fault α} {p q : α → Prop} (h : Yields e p) (hpq : ∀ a, p a → q a) : Yields e q := by
  cases e with
  | ok a => exact hpq a h
  | error f => exact h

theorem and {e : Except Fault α} {p q : α → Prop} (h : Yields e p) (hq : Ensures e q) :
    Yields e fun a => p a ∧ q a := by
  cases e with
  | ok a => exact ⟨h, hq a rfl⟩
  | error f => exact h

theorem of_eq_ok {e : Except Fault α} {p : α → Prop} (h : Yields e p) {a : α} (ha : e = .ok a) : p a := by
  subst ha
  exact h

theorem exists_of_ne {e : Except Fault α} {p : α → Prop} (h : Yields e p)
    (hne : e ≠ .error .overflow) : ∃ a, e = .ok a ∧ p a := by
  cases e with
  | ok a => exact ⟨a, rfl, h⟩
  | error f => exact absurd (congrArg Except.error h) hne

/-- Two computations that fail for sizes only agree if they have the same values. -/
theorem eq_of_ok_iff {e e' : Except Fault α} {p q : α → Prop} (h : Yields e p) (h' : Yields e' q)
    (hiff : ∀ a, e = .ok a ↔ e' = .ok a) : e = e' := by
  cases e with
  | ok a => exact ((hiff a).mp rfl).symm
  | error f =>
    cases e' with
    | ok a => exact (hiff a).mpr rfl
    | error g => exact congrArg Except.error (Eq.trans h (Eq.symm h'))

theorem eq_of_exists_iff {e e' : Except Fault α} {a : α} (h : Yields e (· = a)) (h' : Yields e' (· = a))
    (hiff : (∃ b, e = .ok b) ↔ ∃ b, e' = .ok b) : e = e' := by
  refine h.eq_of_ok_iff h' fun b => ⟨fun hb => ?_, fun hb => ?_⟩
  · obtain ⟨c, hc⟩ := hiff.mp ⟨b, hb⟩
    rw [hc, h'.of_eq_ok hc, h.of_eq_ok hb]
  · obtain ⟨c, hc⟩ := hiff.mpr ⟨b, hb⟩
    rw [hc, h.of_eq_ok hc, h'.of_eq_ok hb]

theorem bind {e : Except Fault α} {g : α → Except Fault β} {p : α → Prop} {q : β → Prop}
    (h : Yields e p) (hg : ∀ a, p a → Yields (g a) q) : Yields (e >>= g) q := by
  cases e with
  | ok a => exact hg a h
  | error f => exact h

theorem map {e : Except Fault α} {g : α → β} {q : β → Prop} (h : Yields e fun a => q (g a)) :
    Yields (g <$> e) q := by
  cases e with
  | ok a => exact h
  | error f => exact h

/-- The rule of a loop, whose invariant knows the items that have been processed. -/
theorem foldlM {f : β → α → Except Fault β} {l : List α} {b : β} (inv : List α → β → Prop)
    (start : inv [] b)
    (step : ∀ done a, a ∈ l → ∀ b, inv done b → Yields (f b a) (inv (done ++ [a]))) :
    Yields (l.foldlM f b) (inv l) := by
  suffices h : ∀ (todo done : List α) (b : β), (∀ a ∈ todo, a ∈ l) → inv done b →
      Yields (todo.foldlM f b) (inv (done ++ todo)) from h l [] b (fun _ ha => ha) start
  intro todo
  induction todo with
  | nil => intro done b _ hb; simpa using hb
  | cons a todo ih =>
    intro done b hl hb
    rw [List.foldlM_cons]
    refine (step done a (hl a List.mem_cons_self) b hb).bind fun c hc => ?_
    simpa using ih (done ++ [a]) c (fun x hx => hl x (List.mem_cons_of_mem a hx)) hc

theorem forall₂_mapM {f : α → Except Fault β} {l : List α} {R : α → β → Prop} (step : ∀ a ∈ l, Yields (f a) (R a)) :
    Yields (l.mapM f) (List.Forall₂ R l) := by
  induction l with
  | nil => exact pure_iff.mpr .nil
  | cons a l ih =>
    rw [List.mapM_cons]
    refine (step a List.mem_cons_self).bind fun b hb => ?_
    refine (ih fun x hx => step x (List.mem_cons_of_mem a hx)).bind fun bs hbs => ?_
    exact pure_iff.mpr (.cons hb hbs)

theorem mapM {f : α → Except Fault β} {l : List α} (g : α → β) (step : ∀ a ∈ l, Yields (f a) (· = g a)) :
    Yields (l.mapM f) (· = l.map g) :=
  (forall₂_mapM (R := fun a b => b = g a) step).mono fun _ h => eq_map_of_forall₂ h

end Yields

theorem yields_storable (n : ℕ) : Yields (Size.storable n) fun _ => True := by
  unfold Size.storable
  split <;> simp

theorem yields_sizeAdd (a b : ℕ) : Yields (Size.add a b) fun _ => True := by
  unfold Size.add
  split <;> simp

theorem yields_sizeMul (a b : ℕ) : Yields (Size.mul a b) (· = a * b) := by
  unfold Size.mul
  split <;> simp

theorem ne_overflow_of_eq_ok {e : Except Fault α} {a : α} (h : e = .ok a) : e ≠ .error .overflow := by
  simp [h]

theorem pure_ne_overflow (a : α) : (pure a : Except Fault α) ≠ .error .overflow := ne_overflow_of_eq_ok rfl

theorem bind_ne_overflow {e : Except Fault α} {g : α → Except Fault β} (he : e ≠ .error .overflow)
    (hg : ∀ a, e = .ok a → g a ≠ .error .overflow) : (e >>= g) ≠ .error .overflow := by
  cases e with
  | ok a => exact hg a rfl
  | error f => exact fun h => he (congrArg Except.error (Except.error.inj h))

theorem map_ne_overflow {e : Except Fault α} {g : α → β} (he : e ≠ .error .overflow) :
    g <$> e ≠ .error .overflow := by
  cases e with
  | ok a => exact pure_ne_overflow (g a)
  | error f => exact fun h => he (congrArg Except.error (Except.error.inj h))

theorem sizeMul_ne_overflow {a b : ℕ} (h : a * b < Size.bound) : Size.mul a b ≠ .error .overflow :=
  ne_overflow_of_eq_ok (if_pos h)

namespace Outcome

variable {ε : Type}

/-- Unless a size leaves its range, there is a value that satisfies `p` or an error that satisfies `q`. -/
def Yields (o : Outcome ε α) (p : α → Prop) (q : ε → Prop) : Prop :=
  match o.result with
  | .ok a => p a
  | .error (.error e) => q e
  | .error (.fault f) => f = .overflow

/-- Unless a size leaves its range, there is a value, and it satisfies `p`. -/
abbrev Returns (o : Outcome ε α) (p : α → Prop) : Prop := o.Yields p fun _ => False

namespace Yields

@[simp] theorem ok_iff {a : α} {p : α → Prop} {q : ε → Prop} : (ok a : Outcome ε α).Yields p q ↔ p a := Iff.rfl

@[simp] theorem pure_iff {a : α} {p : α → Prop} {q : ε → Prop} :
    (pure a : Outcome ε α).Yields p q ↔ p a := Iff.rfl

@[simp] theorem error_iff {e : ε} {p : α → Prop} {q : ε → Prop} :
    (error e : Outcome ε α).Yields p q ↔ q e := Iff.rfl

variable {o : Outcome ε α} {p : α → Prop} {q : ε → Prop}

theorem mono {p' : α → Prop} {q' : ε → Prop} (h : o.Yields p q) (hp : ∀ a, p a → p' a)
    (hq : ∀ e, q e → q' e) : o.Yields p' q' :=
  Ends.mono h hp hq fun _ hf => hf

/-- All faults are left open. -/
theorem ends (h : o.Yields p q) : o.Ends p q fun _ => True :=
  Ends.mono h (fun _ ha => ha) (fun _ he => he) fun _ _ => trivial

theorem of_result_eq_ok (h : o.Yields p q) {a : α} (ha : o.result = .ok a) : p a := Ends.of_result_eq_ok h ha

theorem exists_of_ne (h : o.Yields p fun _ => False) (hne : o.result ≠ .error (.fault .overflow)) :
    ∃ a, o.result = .ok a ∧ p a := by
  obtain ⟨reports, (f | e) | a⟩ := o
  · cases (show f = .overflow from h)
    exact absurd rfl hne
  · exact h.elim
  · exact ⟨a, rfl, h⟩

theorem bind {g : α → Outcome ε β} {r : β → Prop} (h : o.Yields p q) (hg : ∀ a, p a → (g a).Yields r q) :
    (o >>= g).Yields r q :=
  Ends.bind h hg

theorem report_bind {e : Except Fault Event} {g : Unit → Outcome ε α} (h : (g ()).Yields p q) :
    (reportIfTold e >>= g).Yields p q := h

theorem lift {e : Except Fault α} (h : BlockElimination.Yields e p) : (ofExcept e : Outcome ε α).Yields p q := by
  cases e with
  | ok a => exact h
  | error f => exact h

theorem lift_bind {e : Except Fault α} {g : α → Outcome ε β} {r : β → Prop} (h : BlockElimination.Yields e p)
    (hg : ∀ a, p a → (g a).Yields r q) : (ofExcept e >>= g).Yields r q :=
  (lift h).bind hg

theorem mapError {ε' : Type} {events : ε → List Event} {f : ε → ε'} {q' : ε' → Prop} (h : o.Yields p q)
    (hq : ∀ e, q e → q' (f e)) : (o.mapError events f).Yields p q' :=
  Ends.mapError h hq

theorem map {g : α → β} {r : β → Prop} (h : o.Yields (fun a => r (g a)) q) : (g <$> o).Yields r q := Ends.map h

theorem of_map {g : α → β} {r : β → Prop} (h : (g <$> o).Yields r q) : o.Yields (fun a => r (g a)) q := by
  obtain ⟨reports, (f | e) | a⟩ := o <;> exact h

theorem mapM {f : α → Outcome ε β} {l : List α} (g : α → β) (step : ∀ a ∈ l, (f a).Yields (· = g a) q) :
    (l.mapM f).Yields (· = l.map g) q :=
  Ends.mono (Ends.mapM (R := fun a b => b = g a) step) (fun _ h => eq_map_of_forall₂ h) (fun _ he => he) fun _ hf => hf

theorem foldlM {f : β → α → Outcome ε β} {l : List α} {b : β} (inv : List α → β → Prop)
    (start : inv [] b)
    (step : ∀ done a, a ∈ l → ∀ b, inv done b → (f b a).Yields (inv (done ++ [a])) q) :
    (l.foldlM f b).Yields (inv l) q :=
  Ends.foldlM inv start step

end Yields

theorem exists_of_bind_eq_ok {o : Outcome ε α} {g : α → Outcome ε β} {b : β} (h : (o >>= g).result = .ok b) :
    ∃ a, o.result = .ok a ∧ (g a).result = .ok b := by
  obtain ⟨reports, s | a⟩ := o
  · cases h
  · exact ⟨a, rfl, h⟩

theorem bind_result_eq_ok {o : Outcome ε α} {g : α → Outcome ε β} {a : α} {b : β} (ho : o.result = .ok a)
    (hg : (g a).result = .ok b) : (o >>= g).result = .ok b := by
  obtain ⟨reports, s | a⟩ := o
  · cases ho
  · cases ho
    exact hg

@[simp] theorem ofExcept_result_eq_ok_iff {e : Except Fault α} {a : α} :
    (ofExcept e : Outcome ε α).result = .ok a ↔ e = .ok a := by
  cases e with
  | ok b => simp [ok]
  | error f => simp [fault]

theorem result_eq_ok_of_mapError {ε' : Type} {o : Outcome ε α} {events : ε → List Event} {f : ε → ε'} {a : α}
    (h : (o.mapError events f).result = .ok a) : o.result = .ok a := by
  obtain ⟨reports, (g | e) | b⟩ := o
  · cases h
  · cases h
  · cases h
    rfl

/-- A loop that has come to its end has passed every item. -/
theorem exists_of_foldlM_result_eq_ok {f : β → α → Outcome ε β} {l : List α} {b c : β}
    (h : (l.foldlM f b).result = .ok c) : ∀ a ∈ l, ∃ b' c', (f b' a).result = .ok c' := by
  induction l generalizing b with
  | nil => simp
  | cons x l ih =>
    rw [List.foldlM_cons] at h
    obtain ⟨b', hx, h⟩ := exists_of_bind_eq_ok h
    rw [List.forall_mem_cons]
    exact ⟨⟨b, b', hx⟩, ih h⟩

end Outcome

end BlockElimination
