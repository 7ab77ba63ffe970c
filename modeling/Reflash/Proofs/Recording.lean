import Reflash.Proofs.Device

/-!
# Devices that are observed

The reads, erases and writes that a device is asked for can be observed, together with
what becomes of them (`Device.observed`). Nothing depends on what is observed: a
computation on the observed device goes as on the device itself (`Mirrors`), whatever
the device does. A journal of the commands is the simplest case (`Device.recording`).

* `executePlan_observed`: an execution goes the same way if it is observed.
* `executePlan_recording`: it goes the same way with a journal and without.
* `recording_readsKeep`: reading, dry runs and access checks leave the journal alone.
-/

namespace Reflash

variable {S T σ τ α β ε : Type}

/-- A command that is meant to change the contents of a device. -/
inductive Command where
  | erase (function address len : ℕ)
  | write (address : ℕ) (data : Image)
deriving DecidableEq, Repr

namespace Command

/-- The addresses of the command. -/
def span : Command → Span
  | erase _ address len => ⟨address, len⟩
  | write address data => ⟨address, data.size⟩

/-- The command erases. -/
def isErase : Command → Bool
  | erase _ _ _ => true
  | write _ _ => false

end Command

/-- The same reply of a device that has something more to its state. -/
def Reply.along {τ : Type} (r : Reply σ α) (t : τ) : Reply (σ × τ) α :=
  ⟨r.result, (r.device, t), r.notes⟩

/-- The error of a result, if it is one. -/
def refusal? : Except FlashError α → Option FlashError
  | .ok _ => none
  | .error err => some err

/-- A call that a device was given, and the error that it came to, if it was one. -/
inductive Call where
  | read (span : Span) (refusal? : Option FlashError)
  | command (command : Command) (refusal? : Option FlashError)
deriving DecidableEq, Repr

/-- The device with something else that keeps track of its calls. -/
def Device.observed (d : Device σ) (observe : Call → τ → τ) : Device (σ × τ) where
  read address len s :=
    let reply := d.read address len s.1
    reply.along (observe (.read ⟨address, len⟩ (refusal? reply.result)) s.2)
  write address data s :=
    let reply := d.write address data s.1
    reply.along (observe (.command (.write address data) (refusal? reply.result)) s.2)
  erase function address len s :=
    let reply := d.erase function address len s.1
    reply.along (observe (.command (.erase function address len) (refusal? reply.result)) s.2)
  eraseDryRun function address len s := (d.eraseDryRun function address len s.1).along s.2
  checkAccess address len s := (d.checkAccess address len s.1).along s.2

/-- The session of the device itself. -/
def Session.base (s : Session (σ × τ)) : Session σ := ⟨s.device.1, s.log, s.events⟩

/-- The execution on the device itself. -/
def Execution.base (ex : Execution (σ × τ)) : Execution σ := ⟨ex.session.base, ex.current, ex.stats⟩

/-- The device with a journal of the commands that it was given, oldest first. -/
def Device.recording (d : Device σ) : Device (σ × List Command) where
  read address len s := (d.read address len s.1).along s.2
  write address data s := (d.write address data s.1).along (s.2 ++ [.write address data])
  erase function address len s :=
    (d.erase function address len s.1).along (s.2 ++ [.erase function address len])
  eraseDryRun function address len s := (d.eraseDryRun function address len s.1).along s.2
  checkAccess address len s := (d.checkAccess address len s.1).along s.2

/-- The session without the journal. -/
def Session.plain (s : Session (σ × List Command)) : Session σ := ⟨s.device.1, s.log, s.events⟩

/-- The session with an empty journal. -/
def Session.journaled (s : Session σ) : Session (σ × List Command) :=
  ⟨(s.device, []), s.log, s.events⟩

/-- The commands so far. -/
def Execution.journal (ex : Execution (σ × List Command)) : List Command := ex.session.device.2

/-- Only commands get into the journal. -/
theorem recording_readsKeep (d : Device σ) (J : List Command → Prop) :
    d.recording.ReadsKeep fun s => J s.2 :=
  ⟨fun _ _ _ h => h, fun _ _ _ _ h => h, fun _ _ _ h => h⟩

/-! ## Computations that mirror each other -/

/-- Looked at through `π`, the computation `x` is `y`. -/
def Mirrors (π : S → T) (x : S → α × S) (y : T → α × T) : Prop :=
  ∀ s, y (π s) = ((x s).1, π (x s).2)

/-- What is known of the one is known of the other. -/
theorem Mirrors.ends {π : S → T} {x : S → α × S} {y : T → α × T} {s : S} {Q : α → T → Prop}
    (h : Mirrors π x y) (hx : Ends x s fun a s' => Q a (π s')) : Ends y (π s) Q := by
  unfold Ends
  rw [h s]
  exact hx

section Combinators

variable {π : S → T}

theorem Mirrors.bind {x : StateM S α} {y : StateM T α} {f : α → StateM S β} {g : α → StateM T β}
    (h : Mirrors π x y) (hf : ∀ a, Mirrors π (f a) (g a)) : Mirrors π (x >>= f) (y >>= g) := by
  intro s
  show g (y (π s)).1 (y (π s)).2 = _
  rw [h s]
  exact hf _ _

theorem Mirrors.andThen {x : ExceptT ε (StateM S) α} {y : ExceptT ε (StateM T) α}
    {f : α → ExceptT ε (StateM S) β} {g : α → ExceptT ε (StateM T) β} (h : Mirrors π x y)
    (hf : ∀ a, Mirrors π (f a) (g a)) : Mirrors π (x >>= f) (y >>= g) := by
  refine Mirrors.bind (x := x) (y := y) (f := ExceptT.bindCont f) (g := ExceptT.bindCont g) h ?_
  rintro (e | a)
  · exact fun _ => rfl
  · exact hf a

/-- The value of the first computation is not used. -/
theorem Mirrors.discardThen {x : ExceptT ε (StateM S) α} {y : ExceptT ε (StateM T) α}
    {f : Unit → ExceptT ε (StateM S) β} {g : Unit → ExceptT ε (StateM T) β} (h : Mirrors π x y)
    (hf : Mirrors π (f ()) (g ())) : Mirrors π (discard x >>= f) (discard y >>= g) := by
  have hdiscard : Mirrors π (discard x : ExceptT ε (StateM S) Unit) (discard y) := by
    intro s
    rw [discard_run, discard_run, h s]
  exact hdiscard.andThen fun _ => hf

theorem mirrors_pure (a : α) :
    Mirrors π (pure a : ExceptT ε (StateM S) α) (pure a : ExceptT ε (StateM T) α) := fun _ => rfl

theorem mirrors_throw (e : ε) :
    Mirrors π (throw e : ExceptT ε (StateM S) α) (throw e : ExceptT ε (StateM T) α) := fun _ => rfl

end Combinators

section Tasks

theorem mirrors_note (r : LogRecord) :
    Mirrors Session.base (note r : Task (σ × τ) ε Unit) (note r : Task σ ε Unit) :=
  fun _ => rfl

/-- An operation of the recording device is that of the device. -/
theorem mirrors_ask {op : σ × τ → Reply (σ × τ) α} {op' : σ → Reply σ α}
    (h : ∀ s, op' s.1 = ⟨(op s).result, (op s).device.1, (op s).notes⟩) :
    Mirrors Session.base (Device.ask op) (Device.ask op') := by
  intro s
  show ((op' s.device.1).result, Session.mk (op' s.device.1).device
    (s.log ++ (op' s.device.1).notes) s.events) = _
  rw [h]
  rfl

theorem Mirrors.absorb {x : Task (σ × τ) FlashError α} {y : Task σ FlashError α}
    (h : Mirrors Session.base x y) (policy : Policy) :
    Mirrors Session.base (policy.absorb x) (policy.absorb y) := by
  intro s
  unfold Policy.absorb
  rw [h s]
  rcases x s with ⟨e | a, s'⟩
  · dsimp only
    split <;> rfl
  · rfl

end Tasks

section Steps

theorem Mirrors.during {x : Task (σ × τ) FlashError α} {y : Task σ FlashError α}
    (h : Mirrors Session.base x y) (phase : Phase) (t : Span) :
    Mirrors Execution.base (Step.during phase t x) (Step.during phase t y) := by
  intro ex
  show ((y ex.session.base).1.mapError _, Execution.mk (y ex.session.base).2 _ _) = _
  rw [h]
  rfl

theorem Mirrors.within {x : Step (σ × τ) α} {y : Step σ α}
    (h : Mirrors Execution.base x y) (t : Span) :
    Mirrors Execution.base (Step.within t x) (Step.within t y) := by
  intro ex
  have hpart := h ⟨ex.session, Image.slice ex.current t, ex.stats⟩
  unfold Step.within
  dsimp only [Execution.base] at hpart ⊢
  rw [hpart]
  rfl

theorem mirrors_count (f : ExecutionStats → ExecutionStats) :
    Mirrors Execution.base (Step.count f : Step (σ × τ) Unit) (Step.count f) :=
  fun _ => rfl

theorem mirrors_update (f : Image → Image) :
    Mirrors Execution.base (Step.update f : Step (σ × τ) Unit) (Step.update f) :=
  fun _ => rfl

theorem mirrors_stepNote (r : LogRecord) :
    Mirrors Execution.base (note r : Step (σ × τ) Unit) (note r : Step σ Unit) :=
  fun _ => rfl

theorem mirrors_stepReport (e : Progress) :
    Mirrors Execution.base (report e : Step (σ × τ) Unit) (report e : Step σ Unit) :=
  fun _ => rfl

/-- What goes on with the execution as it is. -/
theorem Mirrors.getThen {f : Execution (σ × τ) → Step (σ × τ) α}
    {g : Execution σ → Step σ α} (h : ∀ ex, Mirrors Execution.base (f ex) (g ex.base)) :
    Mirrors Execution.base (get >>= f) (get >>= g) := fun ex => h ex ex

end Steps

/-! ## Executions -/

variable (d : Device σ) (observe : Call → τ → τ) (chip : Chip) (policy : Policy)

theorem accessible_observed (a n : ℕ) :
    Mirrors Session.base (accessible (d.observed observe) policy a n)
      (accessible d policy a n) := by
  refine ((mirrors_ask fun s => rfl).absorb policy).andThen fun r => ?_
  cases r with
  | ok _ => exact mirrors_pure _
  | error e => exact (mirrors_note _).andThen fun _ => mirrors_pure _

theorem checkEach_observed (want : Image) (start : ℕ) (ps : List Span) :
    Mirrors Session.base (checkEach (d.observed observe) policy want start ps)
      (checkEach d policy want start ps) := by
  induction ps with
  | nil => exact mirrors_pure _
  | cons p ps ih =>
    unfold checkEach
    refine (accessible_observed d observe policy _ _).andThen fun b => ?_
    cases b with
    | false => exact ih
    | true =>
      refine ((mirrors_ask fun s => rfl).absorb policy).andThen fun r => ?_
      cases r with
      | error e => exact ih
      | ok bytes =>
        dsimp only
        split
        · exact mirrors_pure _
        · exact ih

theorem checkRead_observed (want read : Image) (start : ℕ) (ps : List Span)
    (first : Option Mismatch) :
    Mirrors Session.base (checkRead (d.observed observe) policy want read start ps first)
      (checkRead d policy want read start ps first) := by
  induction ps generalizing first with
  | nil => exact mirrors_pure _
  | cons p ps ih =>
    unfold checkRead
    refine (accessible_observed d observe policy _ _).andThen fun b => ?_
    cases b with
    | false => exact ih _
    | true =>
      rw [if_pos rfl, if_pos rfl]
      split <;> exact ih _

theorem verifyRange_observed (want : Image) (start : ℕ) :
    Mirrors Session.base (verifyRange (d.observed observe) chip want start policy)
      (verifyRange d chip want start policy) := by
  have hfind : Mirrors Session.base (findMismatch (d.observed observe) chip want start policy)
      (findMismatch d chip want start policy) := by
    unfold findMismatch
    dsimp only
    split
    · exact checkEach_observed d observe policy _ _ _
    · refine ((mirrors_ask fun s => rfl).absorb policy).andThen fun r => ?_
      cases r with
      | ok bytes => exact checkRead_observed d observe policy _ _ _ _ _
      | error e => exact (mirrors_note _).andThen fun _ => mirrors_pure _
  unfold verifyRange
  split
  · exact mirrors_pure _
  · refine hfind.andThen fun m => ?_
    cases m with
    | none => exact mirrors_pure _
    | some m => exact (mirrors_note _).andThen fun _ => mirrors_throw _

theorem checkErased_observed (s : Span) (erased : UInt8) :
    Mirrors Session.base (checkErased (d.observed observe) s erased) (checkErased d s erased) := by
  refine (mirrors_ask fun s => rfl).andThen fun bytes => ?_
  dsimp only
  split
  · exact mirrors_pure _
  · exact (mirrors_note _).andThen fun _ => mirrors_throw _

theorem eraseBlock_observed (b : Block) :
    Mirrors Execution.base (eraseBlock (d.observed observe) chip policy b)
      (eraseBlock d chip policy b) := by
  have hfinish := (mirrors_update (σ := σ) (τ := τ) fun m =>
    Image.blank m.size chip.erasedValue).andThen fun _ => mirrors_count fun s =>
      { s with erases := s.erases + 1, bytesErased := s.bytesErased + b.size }
  refine (mirrors_count _).andThen fun _ => ?_
  refine ((mirrors_ask fun s => rfl).during _ _).andThen fun _ => ?_
  dsimp only
  split
  · exact ((checkErased_observed d observe _ _).during _ _).andThen fun _ => hfinish
  · exact hfinish

theorem writeWindow_observed (b : Block) (want : Image) (erased : Bool) (w : Span) :
    Mirrors Execution.base (writeWindow (d.observed observe) chip policy b want erased w)
      (writeWindow d chip policy b want erased w) := by
  have hfinish := (mirrors_update (σ := σ) (τ := τ) fun m =>
    Image.overlay m w.start (Image.slice want w)).andThen fun _ => mirrors_count fun s =>
      { s with writes := s.writes + 1, bytesWritten := s.bytesWritten + w.len }
  refine (mirrors_count _).andThen fun _ => ?_
  refine ((mirrors_ask fun s => rfl).during _ _).andThen fun _ => ?_
  dsimp only
  split
  · exact ((verifyRange_observed d observe chip policy _ _).during _ _).andThen fun _ => hfinish
  · exact hfinish

theorem writeWindows_observed (b : Block) (want : Image) (erased : Bool) (n offset : ℕ) :
    Mirrors Execution.base (writeWindows (d.observed observe) chip policy b want erased n offset)
      (writeWindows d chip policy b want erased n offset) := by
  induction n generalizing offset with
  | zero => exact mirrors_pure _
  | succ n ih =>
    unfold writeWindows
    refine Mirrors.getThen fun ex => ?_
    dsimp only [Execution.base]
    split
    · exact mirrors_pure _
    · refine (writeWindow_observed d observe chip policy b want erased _).andThen fun _ => ?_
      exact (ih _).discardThen (mirrors_pure _)

theorem processBlock_observed (b : Block) (want : Image) :
    Mirrors Execution.base (processBlock (d.observed observe) chip policy b want)
      (processBlock d chip policy b want) := by
  unfold processBlock
  refine Mirrors.getThen fun ex => ?_
  dsimp only [Execution.base]
  split
  · refine (eraseBlock_observed d observe chip policy b).andThen fun _ => ?_
    exact (writeWindows_observed d observe chip policy b want _ _ _).andThen fun _ => mirrors_pure _
  · exact (writeWindows_observed d observe chip policy b want _ _ _).andThen fun _ => mirrors_pure _

theorem processBlocks_observed (new : Image) (bs : List Block) (done : ℕ) :
    Mirrors Execution.base (processBlocks (d.observed observe) chip policy new bs done)
      (processBlocks d chip policy new bs done) := by
  induction bs generalizing done with
  | nil => exact mirrors_pure _
  | cons b bs ih =>
    have hrest := (mirrors_stepReport (σ := σ) (τ := τ) (.blockDone (done + b.size))).andThen
      fun _ => ih (done + b.size)
    unfold processBlocks
    refine (mirrors_count _).andThen fun _ => ?_
    refine ((processBlock_observed d observe chip policy b _).within b.span).andThen fun r => ?_
    cases r with
    | ok outcome =>
      dsimp only
      split
      · exact (mirrors_count _).andThen fun _ => (mirrors_stepNote _).andThen fun _ => hrest
      · exact (mirrors_stepNote _).andThen fun _ => hrest
    | error e =>
      dsimp only
      split
      · exact (mirrors_count _).andThen fun _ => (mirrors_stepNote _).andThen fun _ => hrest
      · exact (mirrors_stepNote _).andThen fun _ => mirrors_throw _

/-- **Observing changes nothing** about an execution. -/
theorem executePlan_observed (plan : Plan) (current : Image) :
    Mirrors Session.base (executePlan (d.observed observe) chip plan current policy)
      (executePlan d chip plan current policy) := by
  unfold executePlan
  split
  · exact fun _ => rfl
  · refine Mirrors.bind (fun _ => rfl) fun _ => Mirrors.bind (fun _ => rfl) fun _ => ?_
    refine Mirrors.bind (fun s => ?_) fun r => ?_
    · have hblocks := processBlocks_observed d observe chip policy plan.new plan.blocks 0
        ⟨s, current, {}⟩
      dsimp only [Execution.base] at hblocks
      rw [hblocks]
      rfl
    · obtain ⟨r, image, stats⟩ := r
      cases r with
      | ok _ => exact fun _ => rfl
      | error e => exact fun _ => rfl

/-- A journal of commands is one of the calls without the reads. -/
theorem recording_eq : d.recording = d.observed fun
    | .read _ _, cs => cs
    | .command c _, cs => cs ++ [c] := rfl

theorem verifyRange_recording (want : Image) (start : ℕ) :
    Mirrors Session.base (verifyRange d.recording chip want start policy)
      (verifyRange d chip want start policy) := by
  rw [recording_eq]
  exact verifyRange_observed d _ chip policy want start

theorem writeWindows_recording (b : Block) (want : Image) (erased : Bool) (n offset : ℕ) :
    Mirrors Execution.base (writeWindows d.recording chip policy b want erased n offset)
      (writeWindows d chip policy b want erased n offset) := by
  rw [recording_eq]
  exact writeWindows_observed d _ chip policy b want erased n offset

/-- **Recording changes nothing** about an execution. -/
theorem executePlan_recording (plan : Plan) (current : Image) :
    Mirrors Session.plain (executePlan d.recording chip plan current policy)
      (executePlan d chip plan current policy) := by
  rw [recording_eq]
  exact executePlan_observed d _ chip policy plan current

end Reflash
