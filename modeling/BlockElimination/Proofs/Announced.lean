import BlockElimination.Proofs.Yields

/-!
# Announced errors

Failing computations report at the level of errors. Such a report is made just before the error that it speaks of, and
passing an error on either keeps what has been reported or adds a further report. A computation is `Announced` if it
keeps to this: a value comes without a report of an error, and an error comes right after one. `Counts` also tells how
many there are. All of it is said of what an observer sees, and nothing of a computation that ends in a fault.
-/
namespace BlockElimination.Outcome

variable {ε ε' α β : Type} {o : Outcome ε α}

/-- How many of the events that are seen are errors. -/
def errorCount (o : Outcome ε α) : ℕ := o.observed.1.countP (·.level = .error)

/-- No fault ends the computation. -/
def Faultless (o : Outcome ε α) : Prop := ∀ f, o.observed.2 ≠ .error (.fault f)

instance (o : Outcome ε α) : Decidable o.Faultless :=
  match h : o.observed.2 with
  | .ok _ => isTrue fun _ hf => nomatch h.symm.trans hf
  | .error (.error _) => isTrue fun _ hf => nomatch h.symm.trans hf
  | .error (.fault f) => isFalse fun hfault => hfault f h

/-- A computation that has a value reports no error. -/
def Quiet (o : Outcome ε α) : Prop := ∀ a, o.observed.2 = .ok a → ∀ e ∈ o.observed.1, e.level ≠ .error

/-- A computation that has a value reports no error, and one that ends with an error reports one last. -/
structure Announced (o : Outcome ε α) : Prop where
  quiet : o.Quiet
  last : ∀ x, o.observed.2 = .error (.error x) → ∃ e, o.observed.1.getLast? = some e ∧ e.level = .error

/-- Without a fault, an error is reported just if the computation ends with one, and then the last report is of an
error. -/
def TellsErrors (o : Outcome ε α) : Prop := o.Faultless →
  ((∃ e ∈ o.observed.1, e.level = .error) ↔ ∃ x, o.observed.2 = .error (.error x)) ∧
    ∀ x, o.observed.2 = .error (.error x) → ∃ e, o.observed.1.getLast? = some e ∧ e.level = .error

/-- There is a value and no report of an error, or there is an error and so many reports. -/
def Counts (o : Outcome ε α) : Option ℕ → Prop
  | none => (∃ a, o.observed.2 = .ok a) ∧ o.errorCount = 0
  | some n => (∃ x, o.observed.2 = .error (.error x)) ∧ o.errorCount = n

theorem observed_bind_of_ok {g : α → Outcome ε β} {seen : List Event} {a : α} (h : o.observed = (seen, .ok a)) :
    (o >>= g).observed = (seen ++ (g a).observed.1, (g a).observed.2) := by
  rw [observed_bind, h]

theorem observed_bind_of_error {g : α → Outcome ε β} {seen : List Event} {s : Stop ε}
    (h : o.observed = (seen, .error s)) : (o >>= g).observed = (seen, .error s) := by
  rw [observed_bind, h]

theorem observed_mapError (o : Outcome ε α) (events : ε → List Event) (f : ε → ε') : (o.mapError events f).observed =
    match o.observed with
    | (seen, .ok a) => (seen, .ok a)
    | (seen, .error (.fault g)) => (seen, .error (.fault g))
    | (seen, .error (.error x)) => (seen ++ events x, .error (.error (f x))) := by
  obtain ⟨reports, (g | x) | a⟩ := o
  · simp only [mapError, observed]
    split <;> simp_all
  · simp only [mapError, observed, told_append, told_map_ok]
    rcases told reports with ⟨seen, _ | g⟩ <;> simp
  · simp only [mapError, observed]
    split <;> simp_all

theorem result_eq_ok_of_observed {a : α} (h : o.observed.2 = .ok a) : o.result = .ok a := by
  unfold observed at h
  split at h
  · exact h
  · cases h

theorem Faultless.of_bind {g : α → Outcome ε β} (h : (o >>= g).Faultless) : o.Faultless := by
  intro f hf
  have hstop : o.observed = (o.observed.1, .error (.fault f)) := Prod.ext rfl hf
  exact h f (by rw [observed_bind_of_error hstop])

namespace Quiet

theorem bind {g : α → Outcome ε β} (h : o.Quiet) (hg : ∀ a, (g a).Quiet) : (o >>= g).Quiet := by
  intro b hb e he
  rcases ho : o.observed with ⟨seen, s | a⟩
  · rw [observed_bind_of_error ho] at hb
    cases hb
  · rw [observed_bind_of_ok ho] at hb he
    rcases List.mem_append.mp he with he | he
    · exact h a (by rw [ho]) e (by rwa [ho])
    · exact hg a b hb e he

theorem mapError (h : o.Quiet) (events : ε → List Event) (f : ε → ε') : (o.mapError events f).Quiet := by
  intro a ha e he
  rw [observed_mapError] at ha he
  rcases ho : o.observed with ⟨seen, (g | x) | b⟩ <;> rw [ho] at ha he
  · cases ha
  · cases ha
  · exact h b (by rw [ho]) e (by rwa [ho])

theorem error (x : ε) : (Outcome.error x : Outcome ε α).Quiet := fun _ h => nomatch h

theorem ofResult (r : Except ε α) : (Outcome.ofResult r).Quiet := by
  cases r with
  | ok a => exact fun _ _ e he => nomatch he
  | error x => exact fun _ h => nomatch h

end Quiet

namespace Announced

theorem ok (a : α) : (ok a : Outcome ε α).Announced := ⟨fun _ _ _ he => (nomatch he), fun _ h => nomatch h⟩

theorem ofExcept (e : Except Fault α) : (ofExcept e : Outcome ε α).Announced := by
  cases e with
  | ok a => exact ok a
  | error f => exact ⟨fun _ h => (nomatch h), fun _ h => nomatch h⟩

theorem reportIfTold {e : Except Fault Event} (h : Ensures e (·.level ≠ .error)) :
    (reportIfTold e : Outcome ε Unit).Announced := by
  cases e with
  | ok e => exact ⟨fun _ _ e' he' => List.mem_singleton.mp he' ▸ h e rfl, fun _ h => nomatch h⟩
  | error f => exact ⟨fun _ h => (nomatch h), fun _ h => nomatch h⟩

theorem report {e : Event} (h : e.level ≠ .error) : (report e : Outcome ε Unit).Announced :=
  reportIfTold (Ensures.pure_iff.mpr h)

/-- An error that is reported. -/
theorem failure {e : Event} (h : e.level = .error) (x : ε) :
    (Outcome.report e >>= fun _ => (error x : Outcome ε α)).Announced :=
  ⟨fun _ h => (nomatch h), fun _ _ => ⟨e, rfl, h⟩⟩

theorem bind {g : α → Outcome ε β} (h : o.Announced) (hg : ∀ a, (g a).Announced) : (o >>= g).Announced := by
  refine ⟨h.quiet.bind fun a => (hg a).quiet, fun x hx => ?_⟩
  rcases ho : o.observed with ⟨seen, s | a⟩
  · have hlast := h.last x
    rw [ho] at hlast
    rw [observed_bind_of_error ho] at hx ⊢
    cases hx
    exact hlast rfl
  · -- The second part reports after the first, so its last report is the last of all.
    rw [observed_bind_of_ok ho] at hx ⊢
    obtain ⟨e, he, hlevel⟩ := (hg a).last x hx
    exact ⟨e, by simp [he], hlevel⟩

/-- An error that is passed on without a report has been reported before. -/
theorem mapError_silent (h : o.Announced) (f : ε → ε') : (o.mapError (fun _ => []) f).Announced := by
  refine ⟨h.quiet.mapError _ f, fun y hy => ?_⟩
  rw [observed_mapError] at hy ⊢
  rcases ho : o.observed with ⟨seen, (g | x) | a⟩ <;> rw [ho] at hy
  · cases hy
  · obtain ⟨e, he, hlevel⟩ := h.last x (by rw [ho])
    rw [ho] at he
    exact ⟨e, (congrArg List.getLast? (List.append_nil seen)).trans he, hlevel⟩
  · cases hy

/-- An error that is reported where it is passed on need not have been reported before. -/
theorem mapError_report (h : o.Quiet) {event : ε → Event} (hevent : ∀ x, (event x).level = .error) (f : ε → ε') :
    (o.mapError (fun x => [event x]) f).Announced := by
  refine ⟨h.mapError _ f, fun y hy => ?_⟩
  rw [observed_mapError] at hy ⊢
  rcases ho : o.observed with ⟨seen, (g | x) | a⟩ <;> rw [ho] at hy
  · cases hy
  · exact ⟨event x, List.getLast?_concat, hevent x⟩
  · cases hy

theorem map (h : o.Announced) (g : α → β) : (g <$> o).Announced := h.bind fun a => ok (g a)

theorem mapM {f : α → Outcome ε β} {l : List α} (step : ∀ a ∈ l, (f a).Announced) : (l.mapM f).Announced := by
  induction l with
  | nil => exact ok []
  | cons a l ih =>
    rw [List.mapM_cons]
    refine (step a List.mem_cons_self).bind fun b => ?_
    exact (ih fun x hx => step x (List.mem_cons_of_mem a hx)).bind fun bs => ok (b :: bs)

theorem foldlM {f : β → α → Outcome ε β} {l : List α} {b : β} (step : ∀ a ∈ l, ∀ b, (f b a).Announced) :
    (l.foldlM f b).Announced := by
  induction l generalizing b with
  | nil => exact ok b
  | cons a l ih =>
    rw [List.foldlM_cons]
    exact (step a List.mem_cons_self b).bind fun c => ih fun x hx => step x (List.mem_cons_of_mem a hx)

theorem tellsErrors (h : o.Announced) : o.TellsErrors := by
  refine fun hfault => ⟨⟨?_, ?_⟩, h.last⟩
  · rintro ⟨e, he, hlevel⟩
    rcases hresult : o.observed.2 with (f | x) | a
    · exact absurd hresult (hfault f)
    · exact ⟨x, rfl⟩
    · exact absurd hlevel (h.quiet a hresult e he)
  · rintro ⟨x, hx⟩
    obtain ⟨e, he, hlevel⟩ := h.last x hx
    exact ⟨e, List.mem_of_getLast? he, hlevel⟩

end Announced

namespace Counts

variable {c d : Option ℕ}

theorem ok (a : α) : (ok a : Outcome ε α).Counts none := ⟨⟨a, rfl⟩, rfl⟩

theorem error (x : ε) : (error x : Outcome ε α).Counts (some 0) := ⟨⟨x, rfl⟩, rfl⟩

theorem report {e : Event} (h : e.level ≠ .error) : (report e : Outcome ε Unit).Counts none :=
  ⟨⟨(), rfl⟩, by simp [errorCount, h]⟩

/-- An error that is reported. -/
theorem failure {e : Event} (h : e.level = .error) (x : ε) :
    (Outcome.report e >>= fun _ => (Outcome.error x : Outcome ε α)).Counts (some 1) := by
  refine ⟨⟨x, rfl⟩, ?_⟩
  rw [errorCount, observed_bind_of_ok (observed_report e)]
  simp [observed, Outcome.error, told, h]

/-- The second part counts only if the first has a value. -/
theorem bind {g : α → Outcome ε β} (h : o.Counts c) (hg : ∀ a, o.observed.2 = .ok a → (g a).Counts d) :
    (o >>= g).Counts (c.or d) := by
  cases c with
  | none =>
    obtain ⟨⟨a, ha⟩, hzero⟩ := h
    have hbind := observed_bind_of_ok (g := g) (Prod.ext rfl ha : o.observed = (o.observed.1, .ok a))
    have hcount : (o >>= g).errorCount = (g a).errorCount := by
      rw [errorCount, hbind, List.countP_append, ← errorCount, hzero, Nat.zero_add, errorCount]
    have hrest := hg a ha
    cases d with
    | none => exact ⟨by rw [hbind]; exact hrest.1, hcount.trans hrest.2⟩
    | some n => exact ⟨by rw [hbind]; exact hrest.1, hcount.trans hrest.2⟩
  | some n =>
    obtain ⟨⟨x, hx⟩, hcount⟩ := h
    have hbind := observed_bind_of_error (g := g) (Prod.ext rfl hx : o.observed = (o.observed.1, .error (.error x)))
    exact ⟨⟨x, by rw [hbind]⟩, by rw [errorCount, hbind, ← hcount, errorCount]⟩

theorem bind_of_none {g : α → Outcome ε β} (h : o.Counts c) (hg : ∀ a, o.observed.2 = .ok a → (g a).Counts none) :
    (o >>= g).Counts c := by
  have hbind := h.bind hg
  rwa [Option.or_none] at hbind

theorem map (h : o.Counts c) (g : α → β) : (g <$> o).Counts c := h.bind_of_none fun a _ => ok (g a)

/-- An error that is passed on with `k` more reports. -/
theorem mapError (h : o.Counts c) (events : ε → List Event) (k : ℕ)
    (hevents : ∀ x, (events x).countP (·.level = .error) = k) (f : ε → ε') :
    (o.mapError events f).Counts (c.map (· + k)) := by
  cases c with
  | none =>
    obtain ⟨⟨a, ha⟩, hzero⟩ := h
    have hsame : (o.mapError events f).observed = (o.observed.1, .ok a) := by
      rw [observed_mapError, (Prod.ext rfl ha : o.observed = (o.observed.1, .ok a))]
    exact ⟨⟨a, by rw [hsame]⟩, by rw [errorCount, hsame, ← hzero, errorCount]⟩
  | some n =>
    obtain ⟨⟨x, hx⟩, hcount⟩ := h
    have hmore : (o.mapError events f).observed = (o.observed.1 ++ events x, .error (.error (f x))) := by
      rw [observed_mapError, (Prod.ext rfl hx : o.observed = (o.observed.1, .error (.error x)))]
    refine ⟨⟨f x, by rw [hmore]⟩, ?_⟩
    rw [errorCount, hmore, List.countP_append, hevents, ← errorCount, hcount]

theorem mapError_silent (h : o.Counts c) (f : ε → ε') : (o.mapError (fun _ => []) f).Counts c := by
  simpa using h.mapError (fun _ => []) 0 (fun _ => rfl) f

end Counts

end BlockElimination.Outcome
