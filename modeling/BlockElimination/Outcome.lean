import BlockElimination.Event
import BlockElimination.Fault

/-!
# Outcomes

An outcome is what a computation has reported, in order, together with its result: a value, an error that is
an answer to the question, or a fault of the caller. Reports made before an error or a fault are kept.

An event may tell of sizes that are out of range. Where nothing but the report needs these sizes, the result does
not depend on them. Under observation they are computed, and such a report is a fault that ends the computation.
-/
namespace BlockElimination

/-- Why there is no value. -/
inductive Stop (ε : Type)
  | fault (fault : Fault)
  | error (error : ε)
  deriving DecidableEq

/-- `reports` holds a fault in the place of an event that cannot be told. -/
structure Outcome (ε α : Type) where
  reports : List (Except Fault Event)
  result : Except (Stop ε) α

namespace Outcome

variable {ε α β : Type}

def ok (a : α) : Outcome ε α := ⟨[], .ok a⟩

def error (e : ε) : Outcome ε α := ⟨[], .error (.error e)⟩

def fault (f : Fault) : Outcome ε α := ⟨[], .error (.fault f)⟩

/-- Reports an event that may turn out not to be tellable. -/
def reportIfTold (e : Except Fault Event) : Outcome ε Unit := ⟨[e], .ok ()⟩

def report (e : Event) : Outcome ε Unit := reportIfTold (.ok e)

protected def bind (o : Outcome ε α) (f : α → Outcome ε β) : Outcome ε β :=
  match o.result with
  | .ok a => ⟨o.reports ++ (f a).reports, (f a).result⟩
  | .error s => ⟨o.reports, .error s⟩

instance : Monad (Outcome ε) where
  pure := ok
  bind := Outcome.bind

def ofExcept : Except Fault α → Outcome ε α
  | .ok a => ok a
  | .error f => fault f

instance : MonadLift (Except Fault) (Outcome ε) := ⟨ofExcept⟩

def ofResult : Except ε α → Outcome ε α
  | .ok a => ok a
  | .error e => error e

/-- Replaces an error, after reporting what `events` says of it. -/
def mapError {ε' : Type} (o : Outcome ε α) (events : ε → List Event) (f : ε → ε') : Outcome ε' α :=
  match o.result with
  | .ok a => ⟨o.reports, .ok a⟩
  | .error (.fault g) => ⟨o.reports, .error (.fault g)⟩
  | .error (.error e) => ⟨o.reports ++ (events e).map .ok, .error (.error (f e))⟩

/-- The events before the first fault among reports, and that fault. -/
def told : List (Except Fault Event) → List Event × Option Fault
  | [] => ([], none)
  | .ok e :: rest => (e :: (told rest).1, (told rest).2)
  | .error f :: _ => ([], some f)

/-- The events that an observer sees, and the result of the computation under observation. -/
def observed (o : Outcome ε α) : List Event × Except (Stop ε) α :=
  match told o.reports with
  | (events, none) => (events, o.result)
  | (events, some f) => (events, .error (.fault f))

@[simp] theorem pure_eq (a : α) : (pure a : Outcome ε α) = ok a := rfl

@[simp] theorem ok_bind (a : α) (f : α → Outcome ε β) : (ok a >>= f) = f a := by
  simp [bind, Outcome.bind, ok]

@[simp] theorem error_bind (e : ε) (f : α → Outcome ε β) : (error e >>= f) = error e := rfl

@[simp] theorem fault_bind (g : Fault) (f : α → Outcome ε β) : (fault g >>= f) = fault g := rfl

@[simp] theorem bind_ok (o : Outcome ε α) : (o >>= ok) = o := by
  obtain ⟨reports, _ | a⟩ := o <;> simp [bind, Outcome.bind, ok]

theorem bind_bind {γ : Type} (o : Outcome ε α) (f : α → Outcome ε β) (g : β → Outcome ε γ) :
    (o >>= f >>= g) = o >>= fun a => f a >>= g := by
  obtain ⟨reports, _ | a⟩ := o
  · rfl
  · simp only [bind, Outcome.bind]
    cases h : (f a).result <;> simp

instance : LawfulMonad (Outcome ε) := LawfulMonad.mk'
  _ bind_ok ok_bind bind_bind

theorem told_append (r s : List (Except Fault Event)) :
    told (r ++ s) = match told r with
      | (events, none) => (events ++ (told s).1, (told s).2)
      | (events, some f) => (events, some f) := by
  induction r with
  | nil => simp [told]
  | cons report rest ih =>
    cases report with
    | error f => simp [told]
    | ok e =>
      simp only [List.cons_append, told, ih]
      split <;> simp_all

@[simp] theorem told_map_ok (events : List Event) : told (events.map .ok) = (events, none) := by
  induction events with
  | nil => rfl
  | cons e rest ih => simp [told, ih]

@[simp] theorem observed_ok (a : α) : (ok a : Outcome ε α).observed = ([], .ok a) := rfl

@[simp] theorem observed_report (e : Event) : (report e : Outcome ε Unit).observed = ([e], .ok ()) := rfl

/-- Observing a sequence is observing its parts in turn. -/
theorem observed_bind (o : Outcome ε α) (f : α → Outcome ε β) :
    (o >>= f).observed = match o.observed with
      | (events, .ok a) => (events ++ (f a).observed.1, (f a).observed.2)
      | (events, .error s) => (events, .error s) := by
  obtain ⟨reports, s | a⟩ := o
  · simp only [bind, Outcome.bind, observed]
    split <;> simp_all
  · simp only [bind, Outcome.bind, observed, told_append]
    rcases told reports with ⟨events, _ | g⟩
    · rcases h : told (f a).reports with ⟨later, _ | g⟩ <;> simp [h]
    · simp

@[simp] theorem ofExcept_ok (a : α) : (ofExcept (.ok a) : Outcome ε α) = ok a := rfl

@[simp] theorem ofExcept_error (f : Fault) : (ofExcept (.error f) : Outcome ε α) = fault f := rfl

end Outcome

end BlockElimination
