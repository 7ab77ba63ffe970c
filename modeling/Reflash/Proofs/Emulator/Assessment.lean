import Reflash.Proofs.Emulator.Success

/-!
# What a failure tells about the chip

An operation that fails says what became of the chip: it was not touched, or it was
read back and compared with what it was taken to hold before. On an emulated chip the
reading never fails, so the comparison is exact, whatever faults the chip has.

* `assessFailure_ends`: the assessment of a chip.
* `program_accounts`, `reprogram_accounts`: the errors of whole operations.
* `reprogram_assessed`: what the errors mean if the old contents were read.
-/

namespace Reflash.Emulator

variable {e e' : Emulator} {s : Session Emulator} {chip : Chip} {old new : Image}
  {options : WriteOptions} {P : Image → Prop}

/-- What a comparison of the memory with the old contents comes to. -/
def compared (memory old : Image) : Assessment :=
  if memory = old then .nothingChanged else .partiallyWritten

theorem compared_eq_nothingChanged {m : Image} : compared m old = .nothingChanged ↔ m = old := by
  unfold compared
  split <;> simp_all

theorem compared_eq_partiallyWritten {m : Image} :
    compared m old = .partiallyWritten ↔ m ≠ old := by
  unfold compared
  split <;> simp_all

/-- **The assessment of a chip** compares its memory with the old contents and changes nothing. -/
theorem assessFailure_ends (old : Image) (hsize : s.device.memory.size = chip.totalSize) :
    Ends (assessFailure device chip old) s fun assessment s' =>
      assessment = compared s.device.memory old ∧ s.device.Untouched s'.device := by
  unfold assessFailure
  refine Ends.bind (R := fun _ s' => s.device.Untouched s'.device)
    (ends_note (Untouched.refl _)) fun _ s₁ h₁ => ?_
  have hread : Ends (readImage device chip).run ⟨s₁.device, s₁.log, #[]⟩ _ :=
    readImage_ends hsize h₁
  refine Ends.bind (ends_unreported (Q := fun r s' => r = .ok s.device.memory ∧
    s.device.Untouched s'.device) hread) ?_
  rintro _ s₂ ⟨rfl, h₂⟩
  unfold compared
  dsimp only
  split
  · exact Ends.bind (R := fun _ s' => s.device.Untouched s'.device) (ends_note h₂)
      fun _ _ h₃ => ⟨rfl, h₃⟩
  · exact Ends.bind (R := fun _ s' => s.device.Untouched s'.device) (ends_note h₂)
      fun _ _ h₃ => ⟨rfl, h₃⟩

/-- What an error tells about a chip that was `e`, was taken to hold `old`, and is `e'` now. After
a failed execution the memory has `P`. -/
def Accounts (e : Emulator) (old : Image) (P : Image → Prop) (e' : Emulator) :
    OperationError → Prop
  | .read _ | .plan _ => e.Untouched e'
  | .execute _ assessment => P e'.memory ∧ assessment = compared e'.memory old
  | .verify _ => True

/-- **The errors of programming** with old contents to compare with. The memory has `P` after a
failed execution if every execution that starts from these contents leaves it with `P`. -/
theorem program_accounts (hsize : e.memory.size = chip.totalSize) (h : e.Untouched s.device)
    (hrun : ∀ (es : List Eraser) (t : Session Emulator), Nested es → old.size = chip.totalSize →
      new.size = chip.totalSize → e.Untouched t.device →
      Ends (executePlan device chip (Plan.ofErasers chip old new es) old options.policy) t
        fun _ t' => P t'.device.memory) :
    Ends (program device chip old new .diff options) s fun r s' =>
      ∀ err, r = .error err → e.Accounts old P s'.device err := by
  have hmake : Ends (Plan.make chip old new .diff
      (if options.probeErasers then EraserFilter.dryRun device else EraserFilter.all)) s _ :=
    prepare_selected (vouches_probe (readsKeep_untouched e) chip options.probeErasers) h
  refine program_ends
    (R := fun r dev => e.Untouched dev ∧ ∀ plan, r = .ok plan → old.size = chip.totalSize ∧
      new.size = chip.totalSize ∧ ∃ es, plan = Plan.ofErasers chip old new es ∧ Nested es)
    (Q := fun r dev => ∀ err, r = .error err → e.Accounts old P dev err) (hmake.mono ?_) ?_ ?_ ?_
  · rintro r s₁ ⟨h₁, hplan⟩
    refine ⟨h₁, fun plan hr => ?_⟩
    obtain ⟨hold, hnew, es, hes, -, hnested, -⟩ := hplan plan hr
    exact ⟨hold, hnew, es, hes, hnested⟩
  · rintro cause dev ⟨hdev, -⟩ _ ⟨⟩
    exact hdev
  · intro plan dev _ _ err herr
    cases herr
  · rintro plan s₁ ⟨h₁, hplan⟩ hunits
    obtain ⟨hold, hnew, es, rfl, hes⟩ := hplan plan rfl
    -- the size of the memory and what is known about its contents are separate facts of one run
    have halike : Ends
        (executePlan device chip (Plan.ofErasers chip old new es) old options.policy) s₁ _ :=
      executePlan_touches h₁.alike hes hold hnew hunits
    refine executeAssessed_diff ((halike.and (hrun es s₁ hes hold hnew h₁)).mono ?_)
    rintro ⟨r, image⟩ s₂ ⟨⟨h₂, -⟩, hP⟩
    cases r with
    | ok stats =>
      refine Ends.mono (verifyExecuted_error (s := s₂)) fun r s₃ hr => ?_
      cases r with
      | ok _ =>
        intro err herr
        cases herr
      | error err =>
        rintro _ ⟨⟩
        obtain ⟨cause, rfl⟩ := hr err rfl
        trivial
    | error cause =>
      refine (assessFailure_ends old (h₂.size.trans hsize)).mono ?_
      rintro _ s₃ ⟨rfl, h₃⟩ _ ⟨⟩
      rw [Accounts, h₃.memory]
      exact ⟨hP, rfl⟩

/-- **The errors of a write or an erase** that compares with `old`, which may be what was read. -/
theorem reprogram_accounts {s' : Session Emulator} {err : OperationError}
    (hsize : s.device.memory.size = chip.totalSize)
    (hold : ∀ assumed, Ends (oldContents device chip assumed options.old) s fun r s' =>
      s.device.Untouched s'.device ∧
        (r = .ok (old, .diff) ∨ ∃ cause, r = .error (.plan cause)))
    (hrun : ∀ (new : Image) (es : List Eraser) (t : Session Emulator), Nested es →
      old.size = chip.totalSize → new.size = chip.totalSize → s.device.Untouched t.device →
      Ends (executePlan device chip (Plan.ofErasers chip old new es) old options.policy) t
        fun _ t' => P t'.device.memory)
    (h : writeImage device chip new options s = (.error err, s') ∨
      eraseImage device chip options s = (.error err, s')) :
    s.device.Accounts old P s'.device err := by
  have hprogram : ∀ (new : Image) (t : Session Emulator), s.device.Untouched t.device →
      Ends (program device chip old new .diff options) t fun r t' =>
        ∀ err, r = .error err → s.device.Accounts old P t'.device err :=
    fun new t ht => program_accounts hsize ht (hrun new)
  rcases h with h | h
  · have hwrite : Ends (writeImage device chip new options) s fun r s' =>
        ∀ err, r = .error err → s.device.Accounts old P s'.device err := by
      refine writeImage_ends
        (Q := fun r dev => ∀ err, r = .error err → s.device.Accounts old P dev err) ?_
        fun _ => (hold _).mono ?_
      · rintro cause _ _ ⟨⟩
        exact Untouched.refl _
      · rintro _ s₁ ⟨h₁, rfl | ⟨cause, rfl⟩⟩
        · exact fun t ht => hprogram _ t (ht ▸ h₁)
        · rintro _ ⟨⟩
          exact h₁
    exact hwrite.result h err rfl
  · have herase : Ends (eraseImage device chip options) s fun r s' =>
        ∀ err, r = .error err → s.device.Accounts old P s'.device err := by
      refine eraseImage_ends
        (Q := fun r dev => ∀ err, r = .error err → s.device.Accounts old P dev err)
        ((hold _).mono ?_)
      rintro _ s₁ ⟨h₁, rfl | ⟨cause, rfl⟩⟩
      · exact fun t ht => hprogram _ t (ht ▸ h₁)
      · rintro _ ⟨⟩
        exact h₁
    exact herase.result h err rfl

/-- **A failure is assessed exactly** if the old contents were read, whatever faults the chip has,
whatever the options are, and however the failed execution got there: the assessment tells whether
the memory is what it was. An error in reading or planning means that nothing was touched. -/
theorem reprogram_assessed {s' : Session Emulator} {err : OperationError}
    (hsize : s.device.memory.size = chip.totalSize) (hold : options.old = .readChip)
    (h : writeImage device chip new options s = (.error err, s') ∨
      eraseImage device chip options s = (.error err, s')) :
    match err with
    | .read _ | .plan _ => s.device.Untouched s'.device
    | .execute _ assessment =>
      (assessment = .nothingChanged ↔ s'.device.memory = s.device.memory) ∧
        (assessment = .partiallyWritten ↔ s'.device.memory ≠ s.device.memory)
    | .verify _ => True := by
  have haccounts : s.device.Accounts s.device.memory (fun _ => True) s'.device err := by
    refine reprogram_accounts hsize (fun assumed => ?_) (fun _ _ _ _ _ _ _ => trivial) h
    rw [hold]
    refine (oldContents_read assumed hsize (Untouched.refl _)).mono ?_
    rintro _ s₁ ⟨rfl, h₁⟩
    exact ⟨h₁, .inl rfl⟩
  cases err with
  | read cause => exact haccounts
  | plan cause => exact haccounts
  | execute cause assessment =>
    obtain ⟨-, rfl⟩ := haccounts
    exact ⟨compared_eq_nothingChanged, compared_eq_partiallyWritten⟩
  | verify cause => trivial

/-- The worn chip refuses to erase a block. A write has already changed another one then, an erase
has not. -/
theorem reprogram_assessed_worn :
    ((writeImage device Chip.small smallImage {} ⟨worn, #[], #[]⟩).1 =
        .error (.execute ⟨.erase, 2, 2, .eraserNotSupported 1⟩ .partiallyWritten) ∧
      (writeImage device Chip.small smallImage {} ⟨worn, #[], #[]⟩).2.device.memory ≠
        worn.memory) ∧
    (eraseImage device Chip.small {} ⟨worn, #[], #[]⟩).1 =
        .error (.execute ⟨.erase, 2, 2, .eraserNotSupported 1⟩ .nothingChanged) ∧
      (eraseImage device Chip.small {} ⟨worn, #[], #[]⟩).2.device.memory = worn.memory := by
  have hwrite : (writeImage device Chip.small smallImage {} ⟨worn, #[], #[]⟩).1 =
      .error (.execute ⟨.erase, 2, 2, .eraserNotSupported 1⟩ .partiallyWritten) := by
    decide +kernel
  have herase : (eraseImage device Chip.small {} ⟨worn, #[], #[]⟩).1 =
      .error (.execute ⟨.erase, 2, 2, .eraserNotSupported 1⟩ .nothingChanged) := by decide +kernel
  generalize hwritten : writeImage device Chip.small smallImage {} ⟨worn, #[], #[]⟩ = x
    at hwrite ⊢
  generalize herased : eraseImage device Chip.small {} ⟨worn, #[], #[]⟩ = y at herase ⊢
  obtain ⟨_, s₁⟩ := x
  obtain ⟨_, s₂⟩ := y
  cases hwrite
  cases herase
  have hchanged := reprogram_assessed rfl rfl (.inl hwritten)
  have hkept := @reprogram_assessed _ _ smallImage _ _ _ rfl rfl (.inr herased)
  exact ⟨⟨rfl, hchanged.2.1 rfl⟩, rfl, hkept.1.1 rfl⟩

end Reflash.Emulator
