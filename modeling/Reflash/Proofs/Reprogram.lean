import Reflash.Proofs.Device
import Reflash.Proofs.Execution.Rules

/-!
# Rules for whole operations

What an operation comes to follows from what its parts come to: obtaining the old
contents, planning, executing and verifying. As in an execution, log and events do
not matter.

* `writeImage_ends`, `eraseImage_ends`: from the old contents and the programming.
* `program_ends`: the programming, from the plan, its execution and the verification.
* `verifyExecuted_ends`: the verification after an execution, from that of the plan.
* `Plan.MadeIn`: which plan an operation makes.
-/

namespace Reflash

variable {σ : Type} {d : Device σ} {chip : Chip} {old new : Image} {mode : ExtentMode}
  {options : WriteOptions} {policy : Policy} {plan : Plan} {s : Session σ}

theorem checkSize_iff {m : Image} {u : Unit} :
    checkSize chip m = .ok u ↔ m.size = chip.totalSize := by
  unfold checkSize
  rw [← checkImage_eq_ok (u := u)]
  cases chip.checkImage m <;> simp [Except.mapError]

/-- An image of another size cannot be planned with. -/
theorem checkSize_error {m : Image} {err : OperationError} (h : checkSize chip m = .error err) :
    (∃ cause, err = .plan cause) ∧ m.size ≠ chip.totalSize := by
  constructor
  · unfold checkSize at h
    cases hcheck : chip.checkImage m with
    | ok _ =>
      rw [hcheck] at h
      cases h
    | error cause =>
      rw [hcheck] at h
      cases h
      exact ⟨cause, rfl⟩
  · intro hsize
    rw [(checkSize_iff (u := ())).2 hsize] at h
    cases h

/-- If the chip holds `m`, then `m` is what is taken for the old contents. -/
def OldContents.Tells (chip : Chip) (m : Image) : OldContents → Prop
  | .readChip => True
  | .reference image => image = m
  | .noDiff => m = Image.blank chip.totalSize chip.erasedValue

/-- The plan is made from these old contents. -/
def Plan.MadeFrom (plan : Plan) (d : Device σ) (chip : Chip) (old new : Image) (mode : ExtentMode)
    (options : WriteOptions) (s : Session σ) : Prop :=
  (Plan.make chip old new mode
    (if options.probeErasers then EraserFilter.dryRun d else EraserFilter.all) s).1 = .ok plan

/-- The plan that an operation in this session makes, from the old contents that it obtains. Without
a comparison every byte of them counts as `assumed`. -/
def Plan.MadeIn (plan : Plan) (d : Device σ) (chip : Chip) (assumed : UInt8) (new : Image)
    (options : WriteOptions) (s : Session σ) : Prop :=
  ∃ old mode s₁ t, oldContents d chip assumed options.old s = (.ok (old, mode), s₁) ∧
    t.device = s₁.device ∧ plan.MadeFrom d chip old new mode options t

/-- The filter that the options ask for. -/
theorem vouches_probe {I : σ → Prop} (hd : d.ReadsKeep I) (chip : Chip) (probe : Bool) :
    (if probe then EraserFilter.dryRun d else EraserFilter.all : EraserFilter σ).Vouches chip I
      fun _ => True := by
  cases probe with
  | true => exact vouches_dryRun hd chip
  | false => exact vouches_all chip I

theorem executeAssessed_ends {Q : Except OperationError ExecutionStats → Session σ → Prop}
    (h : Ends (executePlan d chip plan plan.old policy) s fun r s' => match r.1 with
      | .ok stats => Q (.ok stats) s'
      | .error e => ∀ assessment s'', Q (.error (.execute e assessment)) s'') :
    Ends (executeAssessed d chip plan mode policy) s Q := by
  unfold executeAssessed
  refine h.liftThen ?_
  rintro ⟨r, image⟩ s₁ h₁
  cases r with
  | ok stats => exact h₁
  | error e =>
    cases mode with
    | wholeChip => exact h₁ _ _
    | diff => exact h₁ _ _

/-- Where the old contents are known, the chip is assessed after a failure. -/
theorem executeAssessed_diff {Q : Except OperationError ExecutionStats → Session σ → Prop}
    (h : Ends (executePlan d chip plan plan.old policy) s fun r s' => match r.1 with
      | .ok stats => Q (.ok stats) s'
      | .error e => Ends (assessFailure d chip plan.old) s' fun assessment s'' =>
          Q (.error (.execute e assessment)) s'') :
    Ends (executeAssessed d chip plan .diff policy) s Q := by
  unfold executeAssessed
  refine h.liftThen ?_
  rintro ⟨r, image⟩ s₁ h₁
  cases r with
  | ok stats => exact h₁
  | error e => exact Ends.liftThen h₁ fun _ _ h₂ => ends_throw h₂

/-- **Verification after an execution**, from that of the plan. It is left out if it is switched
off, or if nothing was changed. -/
theorem verifyExecuted_ends {stats : ExecutionStats} {Q : Except OperationError Bool → σ → Prop}
    (hidle : options.verify = .off ∨ stats.contentChanged = false → Q (.ok false) s.device)
    (hplan : stats.contentChanged = true → ∀ t : Session σ, t.device = s.device →
      Ends (verifyPlan d chip plan options.verify options.policy) t fun r t' => match r with
        | .ok _ => Q (.ok true) t'.device
        | .error cause => Q (.error (.verify cause)) t'.device) :
    Ends (verifyExecuted d chip plan options stats) s fun r s' => Q r s'.device := by
  unfold verifyExecuted
  split
  · rename_i hoff
    exact ends_pure (hidle (.inl hoff))
  · split
    · rename_i hchanged
      have hchecked : ∀ t : Session σ, t.device = s.device → Ends
          ((verifyPlan d chip plan options.verify options.policy).relabel OperationError.verify) t
          fun r t' => match r with
            | .ok _ => Q (.ok true) t'.device
            | .error err => Q (.error err) t'.device := by
        intro t ht
        refine ends_relabel ((hplan hchanged t ht).mono fun r t' hr => ?_)
        cases r with
        | ok _ => exact hr
        | error cause => exact hr
      refine Ends.reportThen (Ends.andThen (hchecked _ rfl) (fun _ t' ht' => ?_) fun _ _ ht' => ht')
      exact Ends.noteThen (ends_pure ht')
    · rename_i hchanged
      exact Ends.noteThen (ends_pure (hidle (.inr (Bool.eq_false_iff.2 hchanged))))

/-- **Verification of the whole chip** after a change, from the check of that range. -/
theorem verifyExecuted_whole {stats : ExecutionStats} {Q : Except OperationError Bool → σ → Prop}
    (hverify : options.verify = .chip) (hchanged : stats.contentChanged = true)
    (h : ∀ t : Session σ, t.device = s.device →
      Ends (verifyRange d chip plan.new 0 options.policy) t fun r t' => match r with
        | .ok _ => Q (.ok true) t'.device
        | .error e => Q (.error (.verify ⟨.verify, 0, plan.new.size, e⟩)) t'.device) :
    Ends (verifyExecuted d chip plan options stats) s fun r s' => Q r s'.device := by
  refine verifyExecuted_ends ?_ fun _ t ht => ?_
  · rintro (hoff | hsame)
    · rw [hverify] at hoff
      cases hoff
    · rw [hchanged] at hsame
      cases hsame
  · rw [hverify]
    unfold verifyPlan
    refine Ends.noteThen (ends_relabel (Ends.mono (h _ ht) fun r t' hr => ?_))
    cases r with
    | ok _ => exact hr
    | error e => exact hr

/-- Verification only reads. -/
theorem verifyExecuted_keeps {I : σ → Prop} (hd : d.ReadsKeep I) (stats : ExecutionStats) :
    Keeps I (verifyExecuted d chip plan options stats) := by
  intro s h
  refine verifyExecuted_ends (Q := fun _ dev => I dev) (fun _ => h) fun _ t ht => ?_
  have hkept : Ends (verifyPlan d chip plan options.verify options.policy) t _ :=
    verifyPlan_keeps hd plan options.verify t (ht.symm ▸ h)
  refine hkept.mono fun r t' h' => ?_
  cases r with
  | ok _ => exact h'
  | error cause => exact h'

/-- Verification fails only as such. -/
theorem verifyExecuted_error {stats : ExecutionStats} :
    Ends (verifyExecuted d chip plan options stats) s fun r _ =>
      ∀ err, r = .error err → ∃ cause, err = .verify cause := by
  refine verifyExecuted_ends
    (Q := fun r _ => ∀ err, r = .error err → ∃ cause, err = .verify cause)
    (fun _ err h => by cases h) fun _ t _ => ?_
  have hany : Ends (verifyPlan d chip plan options.verify options.policy) t fun _ _ => True :=
    trivial
  refine hany.mono fun r t' _ => ?_
  cases r with
  | ok _ =>
    rintro err ⟨⟩
  | error cause =>
    rintro err ⟨⟩
    exact ⟨cause, rfl⟩

/-- **Programming**, from its parts. -/
theorem program_ends {R : Except FlashError Plan → σ → Prop}
    {Q : Except OperationError Summary → σ → Prop}
    (hplan : Ends (Plan.make chip old new mode
      (if options.probeErasers then EraserFilter.dryRun d else EraserFilter.all)) s
      fun r s' => R r s'.device)
    (hfail : ∀ e dev, R (.error e) dev → Q (.error (.plan e)) dev)
    (hempty : ∀ plan dev, R (.ok plan) dev → plan.units = [] →
      Q (.ok { units := 0, bytesChanged := Image.countDiffering old new }) dev)
    (hrun : ∀ plan (s : Session σ), R (.ok plan) s.device → plan.units ≠ [] →
      Ends (executeAssessed d chip plan mode options.policy) s fun r s' => match r with
        | .error e => Q (.error e) s'.device
        | .ok stats => Ends (verifyExecuted d chip plan options stats) s' fun r s'' => match r with
          | .error e => Q (.error e) s''.device
          | .ok verified =>
            Q (.ok { (Summary.record
              { units := plan.units.length, bytesChanged := Image.countDiffering old new } stats)
              with verified := verified }) s''.device) :
    Ends (program d chip old new mode options) s fun r s' => Q r s'.device := by
  have hmake := ends_relabel (f := OperationError.plan)
    (Q := fun r s' => ∃ r', R r' s'.device ∧ r = r'.mapError .plan) (hplan.mono
      fun r s' h => ⟨r, h, rfl⟩)
  unfold program
  refine hmake.andThen ?_ ?_
  · rintro plan s₁ ⟨e | plan', hR, ⟨⟩⟩
    dsimp only
    split
    · rename_i hnil
      have hnil : plan.units = [] := List.isEmpty_iff.1 hnil
      have := hempty plan _ hR hnil
      refine Ends.noteThen (Ends.reportThen (ends_pure ?_))
      rw [hnil]
      exact this
    · rename_i hne
      have hne : plan.units ≠ [] := fun h => hne (List.isEmpty_iff.2 h)
      refine (hrun plan s₁ hR hne).andThen (fun stats s₂ h₂ => ?_) fun _ _ h₂ => h₂
      refine Ends.andThen h₂ (fun verified s₃ h₃ => ?_) fun _ _ h₃ => h₃
      exact Ends.reportThen (ends_pure h₃)
  · rintro e s₁ ⟨e' | plan', hR, heq⟩
    · cases heq
      exact hfail e' _ hR
    · cases heq

/-- **A write**, from its parts. -/
theorem writeImage_ends {Q : Except OperationError Summary → σ → Prop}
    (hrefused : ∀ cause, new.size ≠ chip.totalSize → Q (.error (.plan cause)) s.device)
    (hwrite : new.size = chip.totalSize →
      Ends (oldContents d chip chip.erasedValue options.old) s fun r s' => match r with
        | .error e => Q (.error e) s'.device
        | .ok (old, mode) => ∀ t : Session σ, t.device = s'.device →
          Ends (program d chip old new mode options) t fun r t' => Q r t'.device) :
    Ends (writeImage d chip new options) s fun r s' => Q r s'.device := by
  unfold writeImage
  refine Ends.exceptThen (fun _ hok => ?_) fun err herr => ?_
  · refine (hwrite (checkSize_iff.1 hok)).andThen ?_ fun _ _ h => h
    rintro ⟨old, mode⟩ s₁ h₁
    dsimp only
    split
    · exact Ends.noteThen (h₁ _ rfl)
    · exact h₁ _ rfl
  · obtain ⟨⟨cause, rfl⟩, hsize⟩ := checkSize_error herr
    exact hrefused cause hsize

/-- **An erase**, from its parts. -/
theorem eraseImage_ends {Q : Except OperationError Summary → σ → Prop}
    (h : Ends (oldContents d chip (~~~chip.erasedValue) options.old) s fun r s' => match r with
      | .error e => Q (.error e) s'.device
      | .ok (old, mode) => ∀ t : Session σ, t.device = s'.device →
        Ends (program d chip old (Image.blank chip.totalSize chip.erasedValue) mode options) t
          fun r t' => Q r t'.device) :
    Ends (eraseImage d chip options) s fun r s' => Q r s'.device := by
  unfold eraseImage
  refine h.andThen ?_ fun _ _ h' => h'
  rintro ⟨old, mode⟩ s₁ h₁
  exact Ends.noteThen (h₁ _ rfl)

end Reflash
