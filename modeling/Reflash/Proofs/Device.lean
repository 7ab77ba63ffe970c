import Reflash.Proofs.Computation
import Reflash.Proofs.Plan.Structure
import Reflash.Reprogram

/-!
# What a device keeps

A property `I` of the device that every reading operation leaves alone
(`Device.ReadsKeep`) is still there after reading, planning and verifying. If writes
and erases leave it alone as well (`Device.Keeps`), it is there after everything.
Planning and verifying are made of reading operations and of records in the log
(`Device.Reads`), so they report nothing either.

* `verifyPlan_reads`, `prepare_reads`: computations that only read.
* `Device.Reads.keeps`, `Device.Reads.quiet`: what they leave alone.
* `verifyRange_unignored`: what the policy ignores never makes a verification fail.
-/

namespace Reflash

variable {σ ε α β : Type} {I : σ → Prop} {d : Device σ}

/-- Reading, dry runs and access checks keep `I`. -/
structure Device.ReadsKeep (d : Device σ) (I : σ → Prop) : Prop where
  read : ∀ a n s, I s → I (d.read a n s).device
  dryRun : ∀ f a n s, I s → I (d.eraseDryRun f a n s).device
  access : ∀ a n s, I s → I (d.checkAccess a n s).device

/-- Every operation of the device keeps `I`. -/
structure Device.Keeps (d : Device σ) (I : σ → Prop) : Prop extends d.ReadsKeep I where
  write : ∀ a data s, I s → I (d.write a data s).device
  erase : ∀ f a n s, I s → I (d.erase f a n s).device

/-- Of any device, nothing is kept in particular. -/
theorem keeps_trivial (d : Device σ) : d.Keeps fun _ => True :=
  ⟨⟨fun _ _ _ h => h, fun _ _ _ _ h => h, fun _ _ _ h => h⟩, fun _ _ _ h => h, fun _ _ _ _ h => h⟩

/-- Started with a device that has `I`, the computation ends with one that has it. -/
def Keeps (I : σ → Prop) (x : StateM (Session σ) α) : Prop :=
  ∀ s, I s.device → Ends x s fun _ s' => I s'.device

theorem keeps_pure (a : α) : Keeps I (pure a : Task σ ε α) := fun _ h => h

theorem keeps_note (r : LogRecord) : Keeps I (note r : Task σ ε Unit) := fun _ h => h

theorem Keeps.bind {x : StateM (Session σ) α} {f : α → StateM (Session σ) β} (hx : Keeps I x)
    (hf : ∀ a, Keeps I (f a)) : Keeps I (x >>= f) :=
  fun s h => (hx s h).bind fun a s' h' => hf a s' h'

theorem Keeps.andThen {x : Task σ ε α} {f : α → Task σ ε β} (hx : Keeps I x)
    (hf : ∀ a, Keeps I (f a)) : Keeps I (x >>= f : Task σ ε β) :=
  fun s h => (hx s h).andThen (fun a s' h' => hf a s' h') fun _ _ h' => h'

theorem keeps_ask {op : σ → Reply σ α} (h : ∀ s, I s → I (op s).device) :
    Keeps I (Device.ask op) := fun s hs => ends_ask (h s.device hs)

theorem Keeps.relabel {ε' : Type} {f : ε → ε'} {x : Task σ ε α} (hx : Keeps I x) :
    Keeps I (x.relabel f) := fun s h => ends_relabel (hx s h)

theorem Keeps.unreported {x : StateM (Session σ) α} (hx : Keeps I x) : Keeps I (unreported x) :=
  fun s h => ends_unreported (hx ⟨s.device, s.log, #[]⟩ h)

/-! ## Computations that only read -/

/-- What a result is after an error that the policy ignores was absorbed. -/
def Policy.absorbed (policy : Policy) : Except FlashError α → Except FlashError (Except FlashError α)
  | .ok a => .ok (.ok a)
  | .error e => if policy.ignores e then .ok (.error e) else .error e

theorem Policy.absorb_eq (policy : Policy) (x : Task σ FlashError α) :
    policy.absorb x = fun s => (policy.absorbed (x s).1, (x s).2) := by
  funext s
  unfold absorb
  rcases x s with ⟨e | a, s'⟩
  · dsimp only [absorbed]
    split <;> rfl
  · rfl

/-- The computation is made of reads, dry runs, access checks and changes of the log. -/
inductive Device.Reads (d : Device σ) : {α : Type} → StateM (Session σ) α → Prop
  | pure {α : Type} (a : α) : d.Reads (pure a)
  | log (f : Array LogRecord → Array LogRecord) :
    d.Reads fun s => ((), ⟨s.device, f s.log, s.events⟩)
  | read (a n : ℕ) : d.Reads (Device.ask (d.read a n))
  | dryRun (f a n : ℕ) : d.Reads (Device.ask (d.eraseDryRun f a n))
  | access (a n : ℕ) : d.Reads (Device.ask (d.checkAccess a n))
  | bind {α β : Type} {x : StateM (Session σ) α} {f : α → StateM (Session σ) β} :
    d.Reads x → (∀ a, d.Reads (f a)) → d.Reads (x >>= f)

namespace Device.Reads

/-- **Only reading** keeps what the reading operations keep. -/
theorem keeps {x : StateM (Session σ) α} (h : d.Reads x) (hd : d.ReadsKeep I) :
    Reflash.Keeps I x := by
  induction h with
  | pure a => exact fun _ h => h
  | log f => exact fun _ h => h
  | read a n => exact keeps_ask (hd.read a n)
  | dryRun f a n => exact keeps_ask (hd.dryRun f a n)
  | access a n => exact keeps_ask (hd.access a n)
  | bind _ _ hx hf => exact hx.bind hf

/-- **Nothing is reported** along the way. -/
theorem quiet {x : StateM (Session σ) α} (h : d.Reads x) (s : Session σ) :
    Ends x s fun _ s' => s'.events = s.events := by
  induction h generalizing s with
  | pure a => exact rfl
  | log f => exact rfl
  | read a n => exact rfl
  | dryRun f a n => exact rfl
  | access a n => exact rfl
  | bind _ _ hx hf => exact (hx s).bind fun a s' h' => (hf a s').mono fun _ _ h'' => h''.trans h'

theorem map {x : StateM (Session σ) α} (hx : d.Reads x) (g : α → β) :
    d.Reads fun s => (g (x s).1, (x s).2) := hx.bind fun a => .pure (g a)

/-! The same for computations that may fail. -/

variable {ε' : Type} {x : Task σ ε α} {f : α → Task σ ε β}

theorem ok (a : α) : d.Reads (Pure.pure a : Task σ ε α) := @Reads.pure σ d (Except ε α) (.ok a)

theorem throw (e : ε) : d.Reads (MonadExcept.throw e : Task σ ε α) :=
  @Reads.pure σ d (Except ε α) (.error e)

theorem note (r : LogRecord) : d.Reads (Reflash.note r : Task σ ε Unit) :=
  (Reads.log fun log => log.push r).map Except.ok

theorem notes (rs : List LogRecord) : d.Reads (Reflash.notes rs : Task σ ε Unit) :=
  (Reads.log fun log => log ++ rs).map Except.ok

theorem andThen (hx : d.Reads x) (hf : ∀ a, d.Reads (f a)) : d.Reads (x >>= f : Task σ ε β) := by
  refine @Reads.bind σ d (Except ε α) (Except ε β) x (ExceptT.bindCont f) hx fun r => ?_
  cases r with
  | ok a => exact hf a
  | error e => exact Reads.throw e

theorem liftThen {x : StateM (Session σ) α} (hx : d.Reads x) (hf : ∀ a, d.Reads (f a)) :
    d.Reads (liftM x >>= f : Task σ ε β) := Reads.andThen (hx.map Except.ok) hf

theorem relabel (hx : d.Reads x) (g : ε → ε') : d.Reads (x.relabel g) := hx.map (Except.mapError g)

theorem absorb {x : Task σ FlashError α} (hx : d.Reads x) (policy : Policy) :
    d.Reads (policy.absorb x) := by
  rw [policy.absorb_eq]
  exact hx.map policy.absorbed

end Device.Reads

/-! ## Reading -/

theorem readPieces_keeps (hd : d.ReadsKeep I) (ps : List Span) (bytes : Image) :
    Keeps I (readPieces d ps bytes) := by
  induction ps generalizing bytes with
  | nil => exact fun s h => h
  | cons p ps ih =>
    unfold readPieces
    refine Keeps.bind (keeps_ask (hd.read p.start p.len)) fun r => ?_
    cases r with
    | ok piece => exact Keeps.bind (fun s h => h) fun _ => ih _
    | error e => exact fun s h => h

theorem readImage_keeps (hd : d.ReadsKeep I) (chip : Chip) : Keeps I (readImage d chip) := by
  have hread : Keeps I (readChip d chip.totalSize) :=
    Keeps.bind (fun s h => h) fun _ => (readPieces_keeps hd _ _).bind fun _ s h => h
  intro s h
  refine Ends.liftThen (hread s h) ?_
  rintro ⟨r, image⟩ s' h'
  cases r <;> exact h'

/-! ## Verifying -/

variable {policy : Policy} {chip : Chip} {want : Image} {start : ℕ}

theorem accessible_reads (d : Device σ) (policy : Policy) (a n : ℕ) :
    d.Reads (accessible d policy a n) := by
  refine ((Device.Reads.access a n).absorb policy).andThen fun r => ?_
  cases r with
  | ok _ => exact .ok _
  | error e => exact (Device.Reads.note _).andThen fun _ => .ok _

theorem checkEach_reads (d : Device σ) (ps : List Span) :
    d.Reads (checkEach d policy want start ps) := by
  induction ps with
  | nil => exact .ok _
  | cons p ps ih =>
    unfold checkEach
    refine (accessible_reads d policy _ _).andThen fun b => ?_
    cases b with
    | false => exact ih
    | true =>
      refine ((Device.Reads.read _ _).absorb policy).andThen fun r => ?_
      cases r with
      | error e => exact ih
      | ok bytes =>
        dsimp only
        split
        · exact .ok _
        · exact ih

theorem checkRead_reads (d : Device σ) (read : Image) (ps : List Span) (first : Option Mismatch) :
    d.Reads (checkRead d policy want read start ps first) := by
  induction ps generalizing first with
  | nil => exact .ok _
  | cons p ps ih =>
    unfold checkRead
    refine (accessible_reads d policy _ _).andThen fun b => ?_
    cases b with
    | false => exact ih _
    | true =>
      rw [if_pos rfl]
      split <;> exact ih _

theorem verifyRange_reads (d : Device σ) (chip : Chip) :
    d.Reads (verifyRange d chip want start policy) := by
  have hfind : d.Reads (findMismatch d chip want start policy) := by
    unfold findMismatch
    dsimp only
    split
    · exact checkEach_reads d _
    · refine ((Device.Reads.read _ _).absorb policy).andThen fun r => ?_
      cases r with
      | ok bytes => exact checkRead_reads d _ _ _
      | error e => exact (Device.Reads.note _).andThen fun _ => .ok _
  unfold verifyRange
  split
  · exact .ok _
  · refine hfind.andThen fun m => ?_
    cases m with
    | none => exact .ok _
    | some m => exact (Device.Reads.note _).andThen fun _ => .throw _

theorem verifyRange_keeps (hd : d.ReadsKeep I) :
    Keeps I (verifyRange d chip want start policy) := (verifyRange_reads d chip).keeps hd

theorem verifyUnits_reads (d : Device σ) (us : List ProcessingUnit) :
    d.Reads (verifyUnits d chip want policy us) := by
  induction us with
  | nil => exact .ok _
  | cons u us ih => exact ((verifyRange_reads d chip).relabel _).andThen fun _ => ih

/-- **Verifying** only reads. -/
theorem verifyPlan_reads (d : Device σ) (plan : Plan) (mode : VerifyMode) :
    d.Reads (verifyPlan d chip plan mode policy) := by
  cases mode with
  | off => exact .ok _
  | units => exact (Device.Reads.note _).andThen fun _ => verifyUnits_reads d _
  | chip => exact (Device.Reads.note _).andThen fun _ => (verifyRange_reads d _).relabel _

theorem verifyPlan_keeps (hd : d.ReadsKeep I) (plan : Plan) (mode : VerifyMode) :
    Keeps I (verifyPlan d chip plan mode policy) := (verifyPlan_reads d plan mode).keeps hd

/-- So does the check of an erase. -/
theorem checkErased_reads (d : Device σ) (s : Span) (erased : UInt8) :
    d.Reads (checkErased d s erased) := by
  refine (Device.Reads.read _ _).andThen fun bytes => ?_
  dsimp only
  split
  · exact .ok _
  · exact (Device.Reads.note _).andThen fun _ => .throw _

/-! ## Errors of verifying -/

/-- The policy ignores none of the errors that the computation ends with. -/
def Unignored (policy : Policy) (x : Task σ FlashError α) : Prop :=
  ∀ s, Ends x s fun r _ => ∀ err, r = .error err → policy.ignores err = false

theorem unignored_pure (a : α) : Unignored policy (pure a : Task σ FlashError α) :=
  fun _ err h => by cases h

theorem unignored_note (r : LogRecord) : Unignored policy (note r : Task σ FlashError Unit) :=
  fun _ err h => by cases h

/-- An error that the policy ignores is absorbed. -/
theorem unignored_absorb (policy : Policy) (x : Task σ FlashError α) :
    Unignored policy (policy.absorb x) := by
  refine fun s => ends_absorb ?_
  have hany : Ends x s fun _ _ => True := trivial
  refine hany.mono fun r s' _ => ?_
  cases r with
  | ok a => intro err h; cases h
  | error e =>
    dsimp only
    split
    · intro err h
      cases h
    · rename_i hkept
      intro err h
      cases h
      exact Bool.eq_false_iff.2 hkept

theorem Unignored.andThen {x : Task σ FlashError α} {f : α → Task σ FlashError β}
    (hx : Unignored policy x) (hf : ∀ a, Unignored policy (f a)) :
    Unignored policy (x >>= f : Task σ FlashError β) := by
  intro s
  refine Ends.andThen (hx s) (fun a s' _ => hf a s') ?_
  intro e s' h err he
  cases he
  exact h _ rfl

theorem accessible_unignored (d : Device σ) (policy : Policy) (a n : ℕ) :
    Unignored policy (accessible d policy a n) := by
  refine (unignored_absorb policy _).andThen fun r => ?_
  cases r with
  | ok _ => exact unignored_pure _
  | error e => exact (unignored_note _).andThen fun _ => unignored_pure _

theorem checkEach_unignored (d : Device σ) (ps : List Span) :
    Unignored policy (checkEach d policy want start ps) := by
  induction ps with
  | nil => exact unignored_pure _
  | cons p ps ih =>
    unfold checkEach
    refine (accessible_unignored d policy _ _).andThen fun b => ?_
    cases b with
    | false => exact ih
    | true =>
      refine (unignored_absorb policy _).andThen fun r => ?_
      cases r with
      | error e => exact ih
      | ok bytes =>
        dsimp only
        split
        · exact unignored_pure _
        · exact ih

theorem checkRead_unignored (d : Device σ) (read : Image) (ps : List Span)
    (first : Option Mismatch) :
    Unignored policy (checkRead d policy want read start ps first) := by
  induction ps generalizing first with
  | nil => exact unignored_pure _
  | cons p ps ih =>
    unfold checkRead
    refine (accessible_unignored d policy _ _).andThen fun b => ?_
    cases b with
    | false => exact ih _
    | true =>
      rw [if_pos rfl]
      split <;> exact ih _

/-- **Verification fails only with errors that the policy does not ignore**, on any device. -/
theorem verifyRange_unignored (d : Device σ) (chip : Chip) :
    Unignored policy (verifyRange d chip want start policy) := by
  have hfind : Unignored policy (findMismatch d chip want start policy) := by
    unfold findMismatch
    dsimp only
    split
    · exact checkEach_unignored d _
    · refine (unignored_absorb policy _).andThen fun r => ?_
      cases r with
      | ok bytes => exact checkRead_unignored d _ _ _
      | error e => exact (unignored_note _).andThen fun _ => unignored_pure _
  unfold verifyRange
  split
  · exact unignored_pure _
  · refine hfind.andThen fun m => ?_
    cases m with
    | none => exact unignored_pure _
    | some m =>
      refine (unignored_note _).andThen fun _ s => ends_throw ?_
      intro err h
      cases h
      rfl

/-! ## Planning -/

variable {filter : EraserFilter σ} {extent : ℕ}

theorem gatherCandidates_reads (hf : ∀ i, d.Reads (filter chip i)) (fs : List (EraseFunction × ℕ))
    (found : Candidates) : d.Reads (gatherCandidates chip extent filter fs found) := by
  induction fs generalizing found with
  | nil => exact .ok _
  | cons p fs ih =>
    unfold gatherCandidates
    split
    · refine (hf p.2).liftThen fun b => ?_
      cases b with
      | false => exact ih _
      | true =>
        rw [if_pos rfl]
        dsimp only
        split
        · exact .throw _
        · exact (Device.Reads.notes _).andThen fun _ => ih _
    · exact ih _

theorem selectErasers_reads (hf : ∀ i, d.Reads (filter chip i)) :
    d.Reads (selectErasers chip extent filter) := by
  unfold selectErasers
  refine (gatherCandidates_reads hf _ _).andThen fun found => ?_
  split
  · exact (Device.Reads.notes _).andThen fun _ => (Device.Reads.note _).andThen fun _ => .ok _
  · split
    · exact (Device.Reads.note _).andThen fun _ => .ok _
    · exact (Device.Reads.note _).andThen fun _ => .throw _

/-- **Planning** only reads, if the filter does. -/
theorem prepare_reads (hf : ∀ i, d.Reads (filter chip i)) (old new : Image) :
    d.Reads (Plan.prepare chip old new extent filter) := by
  have hexcept : ∀ x : Except FlashError Unit, d.Reads (liftM x : Task σ FlashError Unit) := by
    intro x
    cases x with
    | ok _ => exact .ok _
    | error e => exact .throw e
  unfold Plan.prepare
  refine (hexcept _).andThen fun _ => (hexcept _).andThen fun _ => ?_
  refine (selectErasers_reads hf).andThen fun es => ?_
  exact (Device.Reads.note _).andThen fun _ => (Device.Reads.notes _).andThen fun _ => .ok _

/-- A dry run asks the device, and takes a note if it refuses. -/
theorem dryRun_reads (d : Device σ) (i : ℕ) : d.Reads (EraserFilter.dryRun d chip i) := by
  refine Device.Reads.bind (.dryRun i 0 chip.totalSize) fun r => ?_
  cases r with
  | ok _ => exact .pure _
  | error e =>
    have hnote : d.Reads (note (.functionDropped i e) : StateM (Session σ) Unit) :=
      .log fun log => log.push (.functionDropped i e)
    exact hnote.bind fun _ => .pure _

/-- A dry run tells of a function with the device. -/
theorem vouches_dryRun (hd : d.ReadsKeep I) (chip : Chip) :
    (EraserFilter.dryRun d).Vouches chip I fun _ => True := by
  intro i s hs
  exact ((dryRun_reads d i).keeps hd s hs).mono fun _ _ h => ⟨h, fun _ => trivial⟩

end Reflash
