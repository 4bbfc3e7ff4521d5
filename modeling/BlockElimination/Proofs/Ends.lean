import Mathlib
import BlockElimination.Outcome

/-!
# How computations end

A computation ends with a value, an error or a fault, and `Ends` says something of each. What is asked of a fault
decides whether there must be a result: nothing at all leaves every fault open. `Tells` speaks of the reports that are
made on the way. The rules follow a computation step by step.
-/
namespace BlockElimination

variable {α β : Type}

/-- If there is a value, it satisfies `p`. -/
def Ensures (e : Except Fault α) (p : α → Prop) : Prop := ∀ a, e = .ok a → p a

namespace Ensures

@[simp] theorem pure_iff {a : α} {p : α → Prop} : Ensures (pure a) p ↔ p a :=
  ⟨fun h => h a rfl, by rintro h _ ⟨⟩; exact h⟩

theorem mono {e : Except Fault α} {p q : α → Prop} (h : Ensures e p) (hpq : ∀ a, p a → q a) : Ensures e q :=
  fun a ha => hpq a (h a ha)

theorem bind {e : Except Fault α} {g : α → Except Fault β} {p : α → Prop} {q : β → Prop}
    (h : Ensures e p) (hg : ∀ a, p a → Ensures (g a) q) : Ensures (e >>= g) q := by
  intro b hb
  cases e with
  | ok a => exact hg a (h a rfl) b hb
  | error f => cases hb

/-- Nothing has to be known of the first part. -/
theorem bind_any {e : Except Fault α} {g : α → Except Fault β} {q : β → Prop} (h : ∀ a, Ensures (g a) q) :
    Ensures (e >>= g) q :=
  bind (p := fun _ => True) (fun _ _ => trivial) fun a _ => h a

theorem map {e : Except Fault α} {g : α → β} {q : β → Prop} (h : Ensures e fun a => q (g a)) : Ensures (g <$> e) q := by
  intro b hb
  cases e with
  | ok a =>
    cases hb
    exact h a rfl
  | error f => cases hb

/-- The rule of a loop, whose invariant knows the items that have been processed. -/
theorem foldlM {f : β → α → Except Fault β} {l : List α} {b : β} (inv : List α → β → Prop) (start : inv [] b)
    (step : ∀ done a b, inv done b → Ensures (f b a) (inv (done ++ [a]))) : Ensures (l.foldlM f b) (inv l) := by
  suffices h : ∀ (todo done : List α) (b : β), inv done b → Ensures (todo.foldlM f b) (inv (done ++ todo)) from
    h l [] b start
  intro todo
  induction todo with
  | nil =>
    intro done b hb
    simpa using hb
  | cons a todo ih =>
    intro done b hb
    rw [List.foldlM_cons]
    refine (step done a b hb).bind fun c hc => ?_
    simpa using ih (done ++ [a]) c hc

end Ensures

namespace Outcome

variable {ε ε' : Type}

/-- A value satisfies `p`, an error `q` and a fault `r`. -/
def Ends (o : Outcome ε α) (p : α → Prop) (q : ε → Prop) (r : Fault → Prop) : Prop :=
  match o.result with
  | .ok a => p a
  | .error (.error e) => q e
  | .error (.fault f) => r f

/-- The computation answers with a value that satisfies `p` or with an error, and not with a fault. -/
abbrev Answers (o : Outcome ε α) (p : α → Prop) : Prop := o.Ends p (fun _ => True) fun _ => False

namespace Ends

variable {o : Outcome ε α} {p : α → Prop} {q : ε → Prop} {r : Fault → Prop}

@[simp] theorem ok_iff {a : α} : (ok a : Outcome ε α).Ends p q r ↔ p a := Iff.rfl

@[simp] theorem pure_iff {a : α} : (pure a : Outcome ε α).Ends p q r ↔ p a := Iff.rfl

@[simp] theorem error_iff {e : ε} : (error e : Outcome ε α).Ends p q r ↔ q e := Iff.rfl

theorem mono {p' : α → Prop} {q' : ε → Prop} {r' : Fault → Prop} (h : o.Ends p q r) (hp : ∀ a, p a → p' a)
    (hq : ∀ e, q e → q' e) (hr : ∀ f, r f → r' f) : o.Ends p' q' r' := by
  obtain ⟨reports, (f | e) | a⟩ := o
  · exact hr f h
  · exact hq e h
  · exact hp a h

theorem of_forall (hp : ∀ a, p a) (hq : ∀ e, q e) (hr : ∀ f, r f) : o.Ends p q r := by
  obtain ⟨reports, (f | e) | a⟩ := o
  · exact hr f
  · exact hq e
  · exact hp a

theorem of_result_eq_ok (h : o.Ends p q r) {a : α} (ha : o.result = .ok a) : p a := by
  unfold Ends at h
  rwa [ha] at h

theorem of_result_eq_error (h : o.Ends p q r) {e : ε} (he : o.result = .error (.error e)) : q e := by
  unfold Ends at h
  rwa [he] at h

theorem of_result_eq_fault (h : o.Ends p q r) {f : Fault} (hf : o.result = .error (.fault f)) : r f := by
  unfold Ends at h
  rwa [hf] at h

theorem exists_of_forall_not (h : o.Ends p q r) (hq : ∀ e, ¬q e) (hr : ∀ f, ¬r f) : ∃ a, o.result = .ok a ∧ p a := by
  obtain ⟨reports, (f | e) | a⟩ := o
  · exact (hr f h).elim
  · exact (hq e h).elim
  · exact ⟨a, rfl, h⟩

/-- What the result is, where only the faults matter. -/
theorem result_eq (h : o.Ends p q r) :
    o.Ends (fun a => o.result = .ok a) (fun e => o.result = .error (.error e)) r := by
  obtain ⟨reports, (f | e) | a⟩ := o
  · exact h
  · rfl
  · rfl

theorem and {p' : α → Prop} (h : o.Ends p q r) (ho : ∀ a, o.result = .ok a → p' a) :
    o.Ends (fun a => p' a ∧ p a) q r := by
  obtain ⟨reports, (f | e) | a⟩ := o
  · exact h
  · exact h
  · exact ⟨ho a rfl, h⟩

theorem bind {g : α → Outcome ε β} {p' : β → Prop} (h : o.Ends p q r) (hg : ∀ a, p a → (g a).Ends p' q r) :
    (o >>= g).Ends p' q r := by
  obtain ⟨reports, (f | e) | a⟩ := o
  · exact h
  · exact h
  · exact hg a h

/-- Nothing follows a computation without a value. -/
theorem stop_bind {g : α → Outcome ε β} {p' : β → Prop} (h : o.Ends (fun _ => False) q r) : (o >>= g).Ends p' q r :=
  h.bind fun _ hf => hf.elim

/-- A report has no part in the result. -/
theorem report_bind {e : Except Fault Event} {g : Unit → Outcome ε α} (h : (g ()).Ends p q r) :
    (reportIfTold e >>= g).Ends p q r := h

theorem lift {e : Except Fault α} (h : Ensures e p) : (ofExcept e : Outcome ε α).Ends p q fun _ => True := by
  cases e with
  | ok a => exact h a rfl
  | error f => trivial

theorem lift_bind {e : Except Fault α} {g : α → Outcome ε β} {p' : β → Prop} (h : Ensures e p)
    (hg : ∀ a, p a → (g a).Ends p' q fun _ => True) : (ofExcept e >>= g).Ends p' q fun _ => True :=
  (lift h).bind hg

theorem lift_bind_eq {e : Except Fault α} {a : α} (he : e = .ok a) {g : α → Outcome ε β} {p' : β → Prop}
    (h : (g a).Ends p' q r) : (ofExcept e >>= g).Ends p' q r := by
  subst he
  exact h

theorem lift_bind_any {e : Except Fault α} {g : α → Outcome ε β} {p' : β → Prop}
    (h : ∀ a, (g a).Ends p' q fun _ => True) : (ofExcept e >>= g).Ends p' q fun _ => True :=
  lift_bind (p := fun _ => True) (fun _ _ => trivial) fun a _ => h a

theorem mapError {events : ε → List Event} {f : ε → ε'} {q' : ε' → Prop} (h : o.Ends p q r)
    (hq : ∀ e, q e → q' (f e)) : (o.mapError events f).Ends p q' r := by
  obtain ⟨reports, (g | e) | a⟩ := o
  · exact h
  · exact hq e h
  · exact h

theorem map {g : α → β} {p' : β → Prop} (h : o.Ends (fun a => p' (g a)) q r) : (g <$> o).Ends p' q r := by
  obtain ⟨reports, (f | e) | a⟩ := o
  · exact h
  · exact h
  · exact h

theorem mapM {f : α → Outcome ε β} {l : List α} {R : α → β → Prop} (step : ∀ a ∈ l, (f a).Ends (R a) q r) :
    (l.mapM f).Ends (List.Forall₂ R l) q r := by
  induction l with
  | nil => exact pure_iff.mpr .nil
  | cons a l ih =>
    rw [List.mapM_cons]
    refine (step a List.mem_cons_self).bind fun b hb => ?_
    refine (ih fun x hx => step x (List.mem_cons_of_mem a hx)).bind fun bs hbs => ?_
    exact pure_iff.mpr (.cons hb hbs)

/-- The rule of a loop, whose invariant knows the items that have been processed. A step also knows those to come. -/
theorem foldlM_of_append {f : β → α → Outcome ε β} {l : List α} {b : β} (inv : List α → β → Prop) (start : inv [] b)
    (step : ∀ done a todo, l = done ++ a :: todo → ∀ b, inv done b → (f b a).Ends (inv (done ++ [a])) q r) :
    (l.foldlM f b).Ends (inv l) q r := by
  suffices h : ∀ (todo done : List α) (b : β), l = done ++ todo → inv done b → (todo.foldlM f b).Ends (inv l) q r from
    h l [] b rfl start
  intro todo
  induction todo with
  | nil =>
    intro done b hl hb
    rw [List.append_nil] at hl
    exact hl ▸ hb
  | cons a todo ih =>
    intro done b hl hb
    rw [List.foldlM_cons]
    exact (step done a todo hl b hb).bind fun c hc => ih (done ++ [a]) c (by simpa using hl) hc

/-- The rule of a loop, whose invariant knows the items that have been processed. -/
theorem foldlM {f : β → α → Outcome ε β} {l : List α} {b : β} (inv : List α → β → Prop) (start : inv [] b)
    (step : ∀ done a, a ∈ l → ∀ b, inv done b → (f b a).Ends (inv (done ++ [a])) q r) :
    (l.foldlM f b).Ends (inv l) q r :=
  foldlM_of_append inv start fun done a todo h => step done a (h ▸ by simp)

end Ends

/-- Every event that is reported satisfies `p`. -/
def Tells (o : Outcome ε α) (p : Event → Prop) : Prop := ∀ e, .ok e ∈ o.reports → p e

namespace Tells

variable {o : Outcome ε α} {p : Event → Prop}

theorem ok (a : α) : (ok a : Outcome ε α).Tells p := fun _ h => nomatch h

theorem error (e : ε) : (error e : Outcome ε α).Tells p := fun _ h => nomatch h

theorem ofExcept (e : Except Fault α) : (ofExcept e : Outcome ε α).Tells p := by
  cases e with
  | ok a => exact ok a
  | error f => exact fun _ h => nomatch h

theorem reportIfTold {e : Except Fault Event} (h : Ensures e p) : (reportIfTold e : Outcome ε Unit).Tells p := by
  intro e' he
  exact h e' (List.mem_singleton.mp he).symm

theorem report {e : Event} (h : p e) : (report e : Outcome ε Unit).Tells p := reportIfTold (Ensures.pure_iff.mpr h)

theorem bind {g : α → Outcome ε β} (h : o.Tells p) (hg : ∀ a, (g a).Tells p) : (o >>= g).Tells p := by
  obtain ⟨reports, s | a⟩ := o
  · exact h
  · intro e he
    rcases List.mem_append.mp he with he | he
    · exact h e he
    · exact hg a e he

theorem mapM {f : α → Outcome ε β} {l : List α} (step : ∀ a ∈ l, (f a).Tells p) : (l.mapM f).Tells p := by
  induction l with
  | nil => exact ok []
  | cons a l ih =>
    rw [List.mapM_cons]
    refine (step a List.mem_cons_self).bind fun b => ?_
    exact (ih fun x hx => step x (List.mem_cons_of_mem a hx)).bind fun bs => ok (b :: bs)

theorem foldlM {f : β → α → Outcome ε β} {l : List α} {b : β} (step : ∀ a ∈ l, ∀ b, (f b a).Tells p) :
    (l.foldlM f b).Tells p := by
  induction l generalizing b with
  | nil => exact ok b
  | cons a l ih =>
    rw [List.foldlM_cons]
    exact (step a List.mem_cons_self b).bind fun c => ih fun x hx => step x (List.mem_cons_of_mem a hx)

theorem stop_bind {g : α → Outcome ε β} {q : ε → Prop} {r : Fault → Prop} (h : o.Tells p)
    (hends : o.Ends (fun _ => False) q r) : (o >>= g).Tells p := by
  obtain ⟨reports, s | a⟩ := o
  · exact h
  · exact hends.elim

end Tells

end Outcome

end BlockElimination
