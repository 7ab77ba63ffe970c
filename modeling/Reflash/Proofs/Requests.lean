import Reflash.Proofs.Execution.Changes
import Reflash.Proofs.Reprogram

/-!
# Sequences of requests

A device can be asked for its own operations and for the library's operations on it
(`Request`), in any order, with any arguments and whatever came of the requests before.
What all operations of the device keep is there after each of them.

* `program_keeps`, `writeImage_keeps`, `eraseImage_keeps`, `verifyImage_keeps`: whole operations.
* `serve_keeps`: one request.
* `states_keep`: all states that a sequence of requests leads through.
-/

namespace Reflash

variable {σ : Type} {d : Device σ} {I : σ → Prop} {chip : Chip} {old new : Image}
  {mode : ExtentMode} {options : WriteOptions} {policy : Policy} {plan : Plan} {s : Session σ}

/-! ## Whole operations -/

theorem assessFailure_keeps (hd : d.ReadsKeep I) (chip : Chip) (before : Image) :
    Keeps I (assessFailure d chip before) := by
  have hread : Keeps I (unreported (readImage d chip).run) := (readImage_keeps hd chip).unreported
  refine Keeps.bind (fun s h => h) fun _ => hread.bind fun r => ?_
  cases r with
  | error e => exact Keeps.bind (fun s h => h) fun _ s h => h
  | ok after =>
    dsimp only
    split
    · exact Keeps.bind (fun s h => h) fun _ s h => h
    · exact Keeps.bind (fun s h => h) fun _ s h => h

theorem executeAssessed_keeps (hd : d.Keeps I) :
    Keeps I (executeAssessed d chip plan mode policy) := by
  intro s h
  have hrun : Ends (executePlan d chip plan plan.old policy) s _ := executePlan_keeps hd h
  unfold executeAssessed
  refine hrun.liftThen ?_
  rintro ⟨r, current⟩ s₁ h₁
  cases r with
  | ok stats => exact ends_pure h₁
  | error e =>
    cases mode with
    | wholeChip => exact Ends.noteThen (ends_throw h₁)
    | diff =>
      have hassess := assessFailure_keeps hd.toReadsKeep chip plan.old s₁ h₁
      exact hassess.liftThen fun _ _ h₂ => ends_throw h₂

theorem program_keeps (hd : d.Keeps I) : Keeps I (program d chip old new mode options) := by
  intro s h
  have hmake : Ends (Plan.make chip old new mode
      (if options.probeErasers then EraserFilter.dryRun d else EraserFilter.all)) s _ :=
    prepare_selected (vouches_probe hd.toReadsKeep chip options.probeErasers) h
  refine program_ends (R := fun _ dev => I dev) (Q := fun _ dev => I dev)
    (hmake.mono fun _ _ h₁ => h₁.1) (fun _ _ h₁ => h₁) (fun _ _ h₁ _ => h₁) ?_
  intro plan s₁ h₁ _
  refine (executeAssessed_keeps hd s₁ h₁).mono fun r s₂ h₂ => ?_
  cases r with
  | error e => exact h₂
  | ok stats =>
    refine (verifyExecuted_keeps hd.toReadsKeep stats s₂ h₂).mono fun r s₃ h₃ => ?_
    cases r <;> exact h₃

theorem oldContents_keeps (hd : d.ReadsKeep I) (chip : Chip) (assumed : UInt8)
    (source : OldContents) : Keeps I (oldContents d chip assumed source) := by
  cases source with
  | readChip => exact (readImage_keeps hd chip).relabel.andThen fun _ => keeps_pure _
  | reference image =>
    exact fun s h => Ends.exceptThen (fun _ _ => ends_pure h) fun _ _ => h
  | noDiff => exact keeps_pure _

/-- **A write of an image** keeps what all operations of the device keep. -/
theorem writeImage_keeps (hd : d.Keeps I) : Keeps I (writeImage d chip new options) := by
  intro s h
  refine writeImage_ends (Q := fun _ dev => I dev) (fun _ _ => h) fun _ => ?_
  refine (oldContents_keeps hd.toReadsKeep chip _ options.old s h).mono fun r s₁ h₁ => ?_
  cases r with
  | error e => exact h₁
  | ok old => exact fun t ht => program_keeps hd t (ht.symm ▸ h₁)

/-- **So does an erase**. -/
theorem eraseImage_keeps (hd : d.Keeps I) : Keeps I (eraseImage d chip options) := by
  intro s h
  refine eraseImage_ends (Q := fun _ dev => I dev) ?_
  refine (oldContents_keeps hd.toReadsKeep chip _ options.old s h).mono fun r s₁ h₁ => ?_
  cases r with
  | error e => exact h₁
  | ok old => exact fun t ht => program_keeps hd t (ht.symm ▸ h₁)

/-- **A verification** keeps what reading keeps. -/
theorem verifyImage_keeps (hd : d.ReadsKeep I) (chip : Chip) (expected : Image) (policy : Policy) :
    Keeps I (verifyImage d chip expected policy) := by
  intro s h
  unfold verifyImage
  refine Ends.exceptThen (fun _ _ => ?_) fun _ _ => h
  refine Ends.noteThen (Ends.reportThen ?_)
  exact ((verifyRange_keeps hd).relabel.andThen fun _ => keeps_note _) _ h

/-! ## Requests -/

/-- A request to a device: one of its own operations or one of the library's, with all that is
passed to it. The chip that is passed need not be the one that the device has. -/
inductive Request where
  | read (address len : ℕ)
  | write (address : ℕ) (data : Image)
  | erase (function address len : ℕ)
  | eraseDryRun (function address len : ℕ)
  | checkAccess (address len : ℕ)
  | readImage (chip : Chip)
  | writeImage (chip : Chip) (new : Image) (options : WriteOptions)
  | eraseImage (chip : Chip) (options : WriteOptions)
  | verifyImage (chip : Chip) (expected : Image) (policy : Policy)
  | executePlan (chip : Chip) (plan : Plan) (current : Image) (policy : Policy)
  | verifyPlan (chip : Chip) (plan : Plan) (mode : VerifyMode) (policy : Policy)

namespace Request

/-- The session after a request, whatever came of it. -/
def serve (d : Device σ) (s : Session σ) : Request → Session σ
  | read address len => (Device.ask (d.read address len) s).2
  | write address data => (Device.ask (d.write address data) s).2
  | erase function address len => (Device.ask (d.erase function address len) s).2
  | eraseDryRun function address len => (Device.ask (d.eraseDryRun function address len) s).2
  | checkAccess address len => (Device.ask (d.checkAccess address len) s).2
  | readImage chip => (Reflash.readImage d chip s).2
  | writeImage chip new options => (Reflash.writeImage d chip new options s).2
  | eraseImage chip options => (Reflash.eraseImage d chip options s).2
  | verifyImage chip expected policy => (Reflash.verifyImage d chip expected policy s).2
  | executePlan chip plan current policy => (Reflash.executePlan d chip plan current policy s).2
  | verifyPlan chip plan mode policy => (Reflash.verifyPlan d chip plan mode policy s).2

/-- The session at first and after each of the requests. -/
def states (d : Device σ) : Session σ → List Request → List (Session σ)
  | s, [] => [s]
  | s, r :: rs => s :: states d (r.serve d s) rs

theorem states_ne_nil {rs : List Request} : states d s rs ≠ [] := by
  cases rs <;> simp [states]

/-- **One request** keeps what all operations of the device keep. -/
theorem serve_keeps (hd : d.Keeps I) (h : I s.device) (r : Request) : I (r.serve d s).device := by
  cases r with
  | read address len => exact keeps_ask (hd.read address len) s h
  | write address data => exact keeps_ask (hd.write address data) s h
  | erase function address len => exact keeps_ask (hd.erase function address len) s h
  | eraseDryRun function address len => exact keeps_ask (hd.dryRun function address len) s h
  | checkAccess address len => exact keeps_ask (hd.access address len) s h
  | readImage chip => exact readImage_keeps hd.toReadsKeep chip s h
  | writeImage chip new options => exact writeImage_keeps hd s h
  | eraseImage chip options => exact eraseImage_keeps hd s h
  | verifyImage chip expected policy =>
    exact verifyImage_keeps hd.toReadsKeep chip expected policy s h
  | executePlan chip plan current policy =>
    have hrun : Ends (Reflash.executePlan d chip plan current policy) s _ := executePlan_keeps hd h
    exact hrun
  | verifyPlan chip plan mode policy => exact verifyPlan_keeps hd.toReadsKeep plan mode s h

/-- **All states** that requests lead through have what all operations of the device keep. -/
theorem states_keep (hd : d.Keeps I) (h : I s.device) (rs : List Request) :
    ∀ t ∈ states d s rs, I t.device := by
  induction rs generalizing s with
  | nil => exact List.forall_mem_singleton.2 h
  | cons r rs ih => exact List.forall_mem_cons.2 ⟨h, ih (serve_keeps hd h r)⟩

end Request

end Reflash
