import Mathlib
import Reflash.Execution

/-!
# Computations and what they end in

Filters, tasks and steps are functions of a state. `Ends x s Q` says that `x`,
started in `s`, ends with a result and a state that satisfy `Q`. Nothing here
diverges, so this speaks about failures as well as about success.

* `Ends.bind`, `Ends.andThen`: a computation followed by another, without and with
  a failure of the first.
* `ends_ask`, `ends_during`, `ends_within`, `ends_absorb`: the ways in which a
  computation reaches the device.
-/

namespace Reflash

variable {S σ ε ε' α β : Type}

/-- Started in `s`, the computation ends with a result and a state that satisfy `Q`. -/
def Ends (x : S → α × S) (s : S) (Q : α → S → Prop) : Prop := Q (x s).1 (x s).2

theorem Ends.mono {x : S → α × S} {s : S} {Q Q' : α → S → Prop} (h : Ends x s Q)
    (hQ : ∀ a s', Q a s' → Q' a s') : Ends x s Q' := hQ _ _ h

theorem Ends.and {x : S → α × S} {s : S} {Q Q' : α → S → Prop} (h : Ends x s Q)
    (h' : Ends x s Q') : Ends x s fun a s' => Q a s' ∧ Q' a s' := ⟨h, h'⟩

/-- The run of a computation. -/
theorem Ends.exists_run {x : S → α × S} {s : S} {Q : α → S → Prop} (h : Ends x s Q) :
    ∃ a s', x s = (a, s') ∧ Q a s' := ⟨_, _, rfl, h⟩

/-- What a run that is known came to. -/
theorem Ends.result {x : S → α × S} {s s' : S} {a : α} {Q : α → S → Prop} (h : Ends x s Q)
    (hrun : x s = (a, s')) : Q a s' := by
  unfold Ends at h
  rwa [hrun] at h

theorem Ends.bind {x : StateM S α} {f : α → StateM S β} {s : S} {R : α → S → Prop}
    {Q : β → S → Prop} (h : Ends x s R) (hf : ∀ a s', R a s' → Ends (f a) s' Q) :
    Ends (x >>= f) s Q := hf _ _ h

/-- If the first computation fails, the second is not started. -/
theorem Ends.andThen {x : ExceptT ε (StateM S) α} {f : α → ExceptT ε (StateM S) β} {s : S}
    {R : Except ε α → S → Prop} {Q : Except ε β → S → Prop} (h : Ends x s R)
    (hok : ∀ a s', R (.ok a) s' → Ends (f a) s' Q)
    (herr : ∀ e s', R (.error e) s' → Q (.error e) s') : Ends (x >>= f) s Q := by
  -- what `ExceptT` makes of a bind: the rest runs only on a value
  have hrun : (x >>= f) s = match x s with
      | (.ok a, s') => f a s'
      | (.error e, s') => (.error e, s') := by
    show ExceptT.bindCont f (x s).1 (x s).2 = _
    rcases x s with ⟨e | a, s'⟩ <;> rfl
  unfold Ends at h ⊢
  rw [hrun]
  rcases hx : x s with ⟨e | a, s'⟩ <;> rw [hx] at h
  · exact herr _ _ h
  · exact hok _ _ h

theorem discard_run (x : ExceptT ε (StateM S) α) (s : S) :
    (discard x : ExceptT ε (StateM S) Unit) s = ((x s).1.map fun _ => (), (x s).2) := by
  show (match (x s).1 with
    | .ok _ => (pure (.ok ()) : StateM S (Except ε Unit))
    | .error e => pure (.error e)) (x s).2 = _
  rcases x s with ⟨e | a, s'⟩ <;> rfl

/-- The value of the first computation is not used. -/
theorem Ends.discardThen {x : ExceptT ε (StateM S) α} {f : Unit → ExceptT ε (StateM S) β} {s : S}
    {R : Except ε α → S → Prop} {Q : Except ε β → S → Prop} (h : Ends x s R)
    (hok : ∀ a s', R (.ok a) s' → Ends (f ()) s' Q)
    (herr : ∀ e s', R (.error e) s' → Q (.error e) s') : Ends (discard x >>= f) s Q := by
  have hdiscard : Ends (discard x : ExceptT ε (StateM S) Unit) s fun r s' =>
      ∃ r', R r' s' ∧ r = r'.map fun _ => () := by
    unfold Ends
    rw [discard_run]
    exact ⟨_, h, rfl⟩
  refine hdiscard.andThen ?_ ?_
  · rintro _ s' ⟨e | a, hR, hr⟩
    · cases hr
    · exact hok a s' hR
  · rintro e s' ⟨e' | a, hR, hr⟩
    · cases hr
      exact herr e s' hR
    · cases hr

/-- The run of a computation that succeeds. -/
theorem Ends.run {x : ExceptT ε (StateM S) α} {s : S} {P : α → S → Prop}
    (h : Ends x s fun r s' => ∃ a, r = .ok a ∧ P a s') : ∃ a s', x s = (.ok a, s') ∧ P a s' := by
  obtain ⟨a, hr, hP⟩ := h
  exact ⟨a, (x s).2, Prod.ext hr rfl, hP⟩

theorem ends_pure {a : α} {s : S} {Q : Except ε α → S → Prop} (h : Q (.ok a) s) :
    Ends (pure a : ExceptT ε (StateM S) α) s Q := h

theorem ends_throw {e : ε} {s : S} {Q : Except ε α → S → Prop} (h : Q (.error e) s) :
    Ends (throw e : ExceptT ε (StateM S) α) s Q := h

/-- The first computation cannot fail. -/
theorem Ends.liftThen {x : StateM S α} {f : α → ExceptT ε (StateM S) β} {s : S} {R : α → S → Prop}
    {Q : Except ε β → S → Prop} (h : Ends x s R) (hf : ∀ a s', R a s' → Ends (f a) s' Q) :
    Ends (liftM x >>= f) s Q := hf _ _ h

/-- The first result does not depend on the state. -/
theorem Ends.exceptThen {x : Except ε α} {f : α → ExceptT ε (StateM S) β} {s : S}
    {Q : Except ε β → S → Prop} (hok : ∀ a, x = .ok a → Ends (f a) s Q)
    (herr : ∀ e, x = .error e → Q (.error e) s) : Ends (liftM x >>= f) s Q := by
  cases x with
  | ok a => exact hok a rfl
  | error e => exact herr e rfl

/-! ## Log, events and the device -/

variable {s : Session σ}

theorem ends_note {r : LogRecord} {Q : Unit → Session σ → Prop}
    (h : Q () ⟨s.device, s.log.push r, s.events⟩) : Ends (note r : StateM (Session σ) Unit) s Q := h

theorem ends_report {e : Progress} {Q : Unit → Session σ → Prop}
    (h : Q () ⟨s.device, s.log, s.events.push e⟩) :
    Ends (report e : StateM (Session σ) Unit) s Q := h

/-- A task that starts by adding to the log. -/
theorem Ends.noteThen {r : LogRecord} {f : Unit → Task σ ε α} {Q : Except ε α → Session σ → Prop}
    (h : Ends (f ()) ⟨s.device, s.log.push r, s.events⟩ Q) : Ends (note r >>= f) s Q := h

theorem Ends.notesThen {rs : List LogRecord} {f : Unit → Task σ ε α}
    {Q : Except ε α → Session σ → Prop}
    (h : Ends (f ()) ⟨s.device, s.log ++ rs, s.events⟩ Q) : Ends (notes rs >>= f) s Q := h

/-- A task that starts by reporting an event. -/
theorem Ends.reportThen {e : Progress} {f : Unit → Task σ ε α} {Q : Except ε α → Session σ → Prop}
    (h : Ends (f ()) ⟨s.device, s.log, s.events.push e⟩ Q) : Ends (report e >>= f) s Q := h

/-- One call of a device operation. -/
theorem ends_ask {op : σ → Reply σ α} {Q : Except FlashError α → Session σ → Prop}
    (h : Q (op s.device).result ⟨(op s.device).device, s.log ++ (op s.device).notes, s.events⟩) :
    Ends (Device.ask op) s Q := h

theorem ends_relabel {f : ε → ε'} {x : Task σ ε α} {Q : Except ε' α → Session σ → Prop}
    (h : Ends x s fun r s' => Q (r.mapError f) s') : Ends (x.relabel f) s Q := h

/-- The errors of a task that succeeds do not matter. -/
theorem Ends.relabelOk {f : ε → ε'} {x : Task σ ε α} {a : α} {R : Session σ → Prop}
    (h : Ends x s fun r s' => r = .ok a ∧ R s') :
    Ends (x.relabel f) s fun r s' => r = .ok a ∧ R s' := by
  refine ends_relabel (h.mono ?_)
  rintro _ s' ⟨rfl, h'⟩
  exact ⟨rfl, h'⟩

theorem Ends.relabelThen {f : ε → ε'} {x : Task σ ε α} {a : α} {g : α → Task σ ε' β}
    {R : Session σ → Prop} {Q : Except ε' β → Session σ → Prop}
    (h : Ends x s fun r s' => r = .ok a ∧ R s') (hg : ∀ s', R s' → Ends (g a) s' Q) :
    Ends (x.relabel f >>= g) s Q := by
  refine h.relabelOk.andThen ?_ ?_
  · rintro _ s' ⟨⟨⟩, h'⟩
    exact hg s' h'
  · rintro err s' ⟨⟨⟩, -⟩

/-- An error that the policy ignores becomes a value. -/
theorem ends_absorb {policy : Policy} {x : Task σ FlashError α}
    {Q : Except FlashError (Except FlashError α) → Session σ → Prop}
    (h : Ends x s fun r s' => match r with
      | .ok a => Q (.ok (.ok a)) s'
      | .error e => if policy.ignores e then Q (.ok (.error e)) s' else Q (.error e) s') :
    Ends (policy.absorb x) s Q := by
  unfold Ends at h ⊢
  unfold Policy.absorb
  rcases hx : x s with ⟨e | a, s'⟩ <;> simp only [hx] at h ⊢
  · split <;> simp_all
  · exact h

theorem ends_unreported {x : StateM (Session σ) α} {Q : α → Session σ → Prop}
    (h : Ends x ⟨s.device, s.log, #[]⟩ fun a s' => Q a ⟨s'.device, s'.log, s.events⟩) :
    Ends (unreported x) s Q := h

/-! ## Steps of an execution -/

variable {ex : Execution σ}

theorem Ends.getThen {f : Execution σ → Step σ α} {Q : Except ExecutionError α → Execution σ → Prop}
    (h : Ends (f ex) ex Q) : Ends (get >>= f) ex Q := h

theorem Ends.countThen {g : ExecutionStats → ExecutionStats} {f : Unit → Step σ α}
    {Q : Except ExecutionError α → Execution σ → Prop}
    (h : Ends (f ()) ⟨ex.session, ex.current, g ex.stats⟩ Q) : Ends (Step.count g >>= f) ex Q := h

theorem ends_count {g : ExecutionStats → ExecutionStats}
    {Q : Except ExecutionError Unit → Execution σ → Prop}
    (h : Q (.ok ()) ⟨ex.session, ex.current, g ex.stats⟩) : Ends (Step.count g) ex Q := h

theorem Ends.updateThen {g : Image → Image} {f : Unit → Step σ α}
    {Q : Except ExecutionError α → Execution σ → Prop}
    (h : Ends (f ()) ⟨ex.session, g ex.current, ex.stats⟩ Q) : Ends (Step.update g >>= f) ex Q := h

/-- What happens on the device leaves the copy and the counters alone. -/
theorem ends_during {phase : Phase} {t : Span} {x : Task σ FlashError α}
    {Q : Except ExecutionError α → Execution σ → Prop}
    (h : Ends x ex.session fun r s' =>
      Q (r.mapError (ExecutionError.mk phase t.start t.len)) ⟨s', ex.current, ex.stats⟩) :
    Ends (Step.during phase t x) ex Q := h

/-- The step works on a copy of one span, which is taken over whatever comes of it. -/
theorem ends_within {t : Span} {x : Step σ α}
    {Q : Except ExecutionError (Except ExecutionError α) → Execution σ → Prop}
    (h : Ends x ⟨ex.session, Image.slice ex.current t, ex.stats⟩ fun r ex' =>
      Q (.ok r) ⟨ex'.session, Image.overlay ex.current t.start ex'.current, ex'.stats⟩) :
    Ends (Step.within t x) ex Q := h

theorem Ends.stepNoteThen {r : LogRecord} {f : Unit → Step σ α}
    {Q : Except ExecutionError α → Execution σ → Prop}
    (h : Ends (f ())
      ⟨⟨ex.session.device, ex.session.log.push r, ex.session.events⟩, ex.current, ex.stats⟩ Q) :
    Ends (note r >>= f) ex Q := h

theorem Ends.stepReportThen {e : Progress} {f : Unit → Step σ α}
    {Q : Except ExecutionError α → Execution σ → Prop}
    (h : Ends (f ())
      ⟨⟨ex.session.device, ex.session.log, ex.session.events.push e⟩, ex.current, ex.stats⟩ Q) :
    Ends (report e >>= f) ex Q := h

end Reflash
