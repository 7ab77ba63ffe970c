import Reflash.Proofs.Emulator.Contents
import Reflash.Proofs.Plan.Uniform
import Reflash.Proofs.Reprogram

/-!
# A reported success is a real one

Whatever faults an emulated chip has, if a write that verifies the whole chip reports
success, the memory is the new image. Verification is left out only if nothing was
asked of the device, and then the memory was the new image before.

* `executePlan_touches`: an execution with a block to process asks for a change.
* `verifyExecuted_chip`: verification of the whole chip passes only on the new image.
* `program_verified`: programming, from contents that may be those of the chip or others.
* `writeImage_success`: the whole of a write.
* `writeImage_undiffed`: a write that takes the chip for erased, which leaves one image unverified.
-/

namespace Reflash.Emulator

variable {e : Emulator} {s : Session Emulator} {chip : Chip} {policy : Policy} {old new : Image}
  {es : List Eraser} {options : WriteOptions} {mode : ExtentMode}

/-- The emulator follows the description of the chip and has a memory of its size. -/
structure Emulates (e : Emulator) (chip : Chip) : Prop where
  follows : e.config.chip = chip
  size : e.memory.size = chip.totalSize

/-- **An execution with a block to process** asks the device for a change, and leaves the
configuration as it is. -/
theorem executePlan_touches (h : e.Alike s.device) (hes : Nested es)
    (hold : old.size = chip.totalSize) (hnew : new.size = chip.totalSize)
    (hne : (Plan.ofErasers chip old new es).units ≠ []) :
    Ends (executePlan device chip (Plan.ofErasers chip old new es) old policy) s fun r s' =>
      e.Alike s'.device ∧ ∀ stats, r.1 = .ok stats → stats.contentChanged = true := by
  have hblocks := (wellFormed_ofErasers hes hold hnew).blocks_ne_nil hne
  refine executePlan_ends
    (Q := fun r _ dev => e.Alike dev ∧ ∀ stats, r = .ok stats → stats.contentChanged = true)
    (hold.trans hnew.symm) fun t ht => ?_
  -- what the device keeps and what is counted are separate facts of one run
  have halike : Ends
      (processBlocks device chip policy new (Plan.ofErasers chip old new es).blocks 0) ⟨t, old, {}⟩ _ :=
    processBlocks_keeps (keeps_alike e) (ht ▸ h)
  have hchange : Ends
      (processBlocks device chip policy new (Plan.ofErasers chip old new es).blocks 0) ⟨t, old, {}⟩ _ :=
    processBlocks_changing (allChange_ofErasers hes hold hnew)
  refine (halike.and hchange).mono ?_
  rintro r ex ⟨hal, -, hchanged⟩
  refine ⟨hal, fun stats hstats => ?_⟩
  cases r with
  | error e => cases hstats
  | ok _ =>
    cases hstats
    exact hchanged.resolve_right hblocks

/-- **Verification of the whole chip** passes only on the new image, and it is not left out after
a change. -/
theorem verifyExecuted_chip {plan : Plan} {stats : ExecutionStats}
    (hopen : s.device.config.protectedRanges = []) (hsize : plan.new.size = s.device.memory.size)
    (hverify : options.verify = .chip) (hchanged : stats.contentChanged = true) :
    Ends (verifyExecuted device chip plan options stats) s fun r s' => ∀ verified, r = .ok verified →
      verified = true ∧ s'.device.memory = plan.new := by
  refine verifyExecuted_whole (Q := fun r (dev : Emulator) => ∀ verified, r = .ok verified →
    verified = true ∧ dev.memory = plan.new) hverify hchanged fun t ht => ?_
  refine (verifyRange_open chip options.policy (e := s.device) hopen (by omega)
    (ht ▸ Untouched.refl _)).mono ?_
  intro r t' hr
  obtain ⟨h', hr⟩ := hr
  cases r with
  | error err =>
    intro verified hok
    cases hok
  | ok _ =>
    intro verified hok
    cases hok
    refine ⟨rfl, ?_⟩
    rw [h'.memory, ← hr.1 rfl, Image.slice, hsize, Nat.zero_add, Array.extract_size]

/-- **Programming with full verification**, from contents that need not be those of the chip: the
memory is then the new image, unless these contents are the new image themselves. -/
theorem program_verified (hu : chip.Uniform) (hs : chip.Sound)
    (hopen : e.config.protectedRanges = []) (hsize : e.memory.size = chip.totalSize)
    (hold : old.size = chip.totalSize) (hnew : new.size = chip.totalSize)
    (hverify : options.verify = .chip) (h : e.Untouched s.device) :
    Ends (program device chip old new mode options) s fun r s' => ∀ summary, r = .ok summary →
      (old ≠ new → summary.verified = true ∧ s'.device.memory = new) ∧
        (old = new → summary.verified = false ∧ e.Untouched s'.device) := by
  have hmake : Ends (Plan.make chip old new mode
      (if options.probeErasers then EraserFilter.dryRun device else EraserFilter.all)) s _ :=
    prepare_selected (vouches_probe (readsKeep_untouched e) chip options.probeErasers) h
  refine program_ends
    (R := fun r dev => e.Untouched dev ∧ ∀ plan, r = .ok plan →
      ∃ es, plan = Plan.ofErasers chip old new es ∧ es ≠ [] ∧ Nested es ∧
        ∀ e ∈ es, chip.Offers e)
    (Q := fun r dev => ∀ summary, r = .ok summary →
      (old ≠ new → summary.verified = true ∧ dev.memory = new) ∧
        (old = new → summary.verified = false ∧ e.Untouched dev))
    (hmake.mono ?_) ?_ ?_ ?_
  · rintro r s₁ ⟨h₁, hplan⟩
    refine ⟨h₁, fun plan hr => ?_⟩
    obtain ⟨-, -, es, hes, hne, hnested, hoffers⟩ := hplan plan hr
    exact ⟨es, hes, hne, hnested, fun o ho => (hoffers o ho).2⟩
  · intro err dev _ summary hok
    cases hok
  · rintro plan dev ⟨hdev, hplan⟩ hnil summary ⟨⟩
    -- without units nothing was asked of the device, and the images are equal
    obtain ⟨es, rfl, hne, hes, hoffers⟩ := hplan plan rfl
    have heq : old = new := eq_of_units_eq_nil hu hs hes hne hoffers hold hnew hnil
    exact ⟨fun hne => absurd heq hne, fun _ => ⟨rfl, hdev⟩⟩
  · rintro plan s₁ ⟨hdev, hplan⟩ hunits
    obtain ⟨es, rfl, -, hes, -⟩ := hplan plan rfl
    have hne : old ≠ new := by
      rintro rfl
      exact hunits (units_self hes hnew)
    refine executeAssessed_ends ((executePlan_touches hdev.alike hes hold hnew hunits).mono ?_)
    rintro ⟨r, image⟩ s₂ ⟨halike, hchanged⟩
    cases r with
    | error err => exact fun _ _ summary hok => by cases hok
    | ok stats =>
      refine Ends.mono (verifyExecuted_chip (halike.config ▸ hopen)
        (hnew.trans (halike.size.trans hsize).symm) hverify (hchanged stats rfl)) ?_
      intro r s₃ hv
      cases r with
      | error err => exact fun summary hok => by cases hok
      | ok verified =>
        obtain ⟨rfl, hmem⟩ := hv verified rfl
        rintro summary ⟨⟩
        exact ⟨fun _ => ⟨rfl, hmem⟩, fun heq => absurd heq hne⟩

/-- **Programming with full verification**, from contents that are those of the chip. -/
theorem program_success (hu : chip.Uniform) (hs : chip.Sound)
    (hopen : e.config.protectedRanges = [])
    (hsize : e.memory.size = chip.totalSize) (hnew : new.size = chip.totalSize)
    (hverify : options.verify = .chip) (h : e.Untouched s.device) :
    Ends (program device chip e.memory new mode options) s fun r s' => ∀ summary, r = .ok summary →
      s'.device.memory = new ∧
        (summary.verified = false → e.Untouched s'.device ∧ e.memory = new) := by
  refine (program_verified hu hs hopen hsize hsize hnew hverify h).mono fun r s' hr summary hok => ?_
  obtain ⟨hchange, hidle⟩ := hr summary hok
  by_cases heq : e.memory = new
  · exact ⟨(hidle heq).2.memory.trans heq, fun _ => ⟨(hidle heq).2, heq⟩⟩
  · refine ⟨(hchange heq).2, fun hverified => ?_⟩
    rw [(hchange heq).1] at hverified
    cases hverified

/-- New contents for the small chip. -/
def smallImage : Image := #[0, 1, 2, 3, 255, 255, 255, 254]

/-- The small chip with every kind of fault: blocks of two bytes are refused, a bit of the last
byte is stuck, erases and writes take three polls, and one that touches address 5 never ends. -/
def worn : Emulator where
  config :=
    { chip := Chip.small, restricted := [1], stuckBits := [(7, 1)], busyPolls := 3,
      stuckBusyAt := some 5 }
  memory := #[255, 255, 9, 9, 255, 255, 255, 255]

/-- **A reported success is a real one**, whatever bits are stuck, whatever functions are refused
and however long the chip stays busy: if a write that reads the chip and verifies all of it
succeeds, the memory is the new image. If nothing was verified, nothing was erased or written, and
the memory was the new image before. -/
theorem writeImage_success {s' : Session Emulator} {summary : Summary}
    (hvalid : chip.validate = .ok ()) (hu : chip.Uniform) (he : s.device.Emulates chip)
    (hopen : s.device.config.protectedRanges = []) (hold : options.old = .readChip)
    (hverify : options.verify = .chip)
    (h : writeImage device chip new options s = (.ok summary, s')) :
    s'.device.memory = new ∧
      (summary.verified = false → s.device.Untouched s'.device ∧ s.device.memory = new) := by
  have hwrite : Ends (writeImage device chip new options) s fun r s' => ∀ summary, r = .ok summary →
      s'.device.memory = new ∧
        (summary.verified = false → s.device.Untouched s'.device ∧ s.device.memory = new) := by
    refine writeImage_ends (Q := fun r dev => ∀ summary, r = .ok summary → dev.memory = new ∧
      (summary.verified = false → s.device.Untouched dev ∧ s.device.memory = new)) ?_ fun hnew => ?_
    · intro err _ summary hok
      cases hok
    · have htells : options.old.Tells chip s.device.memory := by
        rw [hold]
        trivial
      refine (oldContents_ends htells he.size (Untouched.refl _)).mono ?_
      rintro _ s₁ ⟨⟨mode, rfl⟩, h₁⟩ t ht
      exact program_success hu (Chip.validate_iff.1 hvalid) hopen he.size hnew hverify (ht ▸ h₁)
  unfold Ends at hwrite
  rw [h] at hwrite
  exact hwrite summary rfl

/-- The faults of the worn chip do not get in the way of this image. -/
theorem writeImage_success_worn :
    (writeImage device Chip.small smallImage { probeErasers := true } ⟨worn, #[], #[]⟩).1 =
        .ok ⟨1, 5, 1, 4, 2, 5, 0, true, true⟩ ∧
      (writeImage device Chip.small smallImage { probeErasers := true }
        ⟨worn, #[], #[]⟩).2.device.memory = smallImage := by
  have hok : (writeImage device Chip.small smallImage { probeErasers := true } ⟨worn, #[], #[]⟩).1 =
      .ok ⟨1, 5, 1, 4, 2, 5, 0, true, true⟩ := by decide +kernel
  generalize hrun :
    writeImage device Chip.small smallImage { probeErasers := true } ⟨worn, #[], #[]⟩ = x at hok ⊢
  obtain ⟨r, s'⟩ := x
  cases hok
  refine ⟨rfl, (writeImage_success ?_ ?_ ?_ ?_ ?_ ?_ hrun).1⟩
  · decide
  · decide
  · exact ⟨rfl, rfl⟩
  · rfl
  · rfl
  · rfl

/-- **A write without a comparison** takes the chip for erased. If it verifies all of the chip and
succeeds, the memory is the new image, unless this image is that of an erased chip. Then there is
nothing to plan: nothing is erased, written or verified, and the memory stays whatever it is. -/
theorem writeImage_undiffed {s' : Session Emulator} {summary : Summary}
    (hvalid : chip.validate = .ok ()) (hu : chip.Uniform) (he : s.device.Emulates chip)
    (hopen : s.device.config.protectedRanges = []) (hold : options.old = .noDiff)
    (hverify : options.verify = .chip)
    (h : writeImage device chip new options s = (.ok summary, s')) :
    (new ≠ Image.blank chip.totalSize chip.erasedValue →
      summary.verified = true ∧ s'.device.memory = new) ∧
    (new = Image.blank chip.totalSize chip.erasedValue →
      summary.verified = false ∧ s.device.Untouched s'.device) := by
  have hwrite : Ends (writeImage device chip new options) s fun r s' => ∀ summary, r = .ok summary →
      (Image.blank chip.totalSize chip.erasedValue ≠ new →
        summary.verified = true ∧ s'.device.memory = new) ∧
      (Image.blank chip.totalSize chip.erasedValue = new →
        summary.verified = false ∧ s.device.Untouched s'.device) := by
    refine writeImage_ends (Q := fun r dev => ∀ summary, r = .ok summary →
      (Image.blank chip.totalSize chip.erasedValue ≠ new →
        summary.verified = true ∧ dev.memory = new) ∧
      (Image.blank chip.totalSize chip.erasedValue = new →
        summary.verified = false ∧ s.device.Untouched dev)) ?_ fun hnew => ?_
    · intro cause _ summary hok
      cases hok
    · rw [hold]
      refine ends_pure fun t ht => ?_
      exact program_verified hu (Chip.validate_iff.1 hvalid) hopen he.size Image.size_blank hnew
        hverify (ht ▸ Untouched.refl _)
  obtain ⟨hchange, hidle⟩ := hwrite.result h summary rfl
  exact ⟨fun hne => hchange hne.symm, fun heq => hidle heq.symm⟩

/-- The worn chip can be programmed as if it were erased where it holds what is written. -/
theorem writeImage_undiffed_worn :
    (writeImage device Chip.small #[0, 1, 9, 9, 255, 255, 255, 254] { old := .noDiff }
        ⟨worn, #[], #[]⟩).1 = .ok ⟨2, 5, 0, 0, 3, 5, 0, true, true⟩ ∧
      (writeImage device Chip.small #[0, 1, 9, 9, 255, 255, 255, 254] { old := .noDiff }
        ⟨worn, #[], #[]⟩).2.device.memory = #[0, 1, 9, 9, 255, 255, 255, 254] := by
  have hok : (writeImage device Chip.small #[0, 1, 9, 9, 255, 255, 255, 254] { old := .noDiff }
      ⟨worn, #[], #[]⟩).1 = .ok ⟨2, 5, 0, 0, 3, 5, 0, true, true⟩ := by decide +kernel
  generalize hrun : writeImage device Chip.small #[0, 1, 9, 9, 255, 255, 255, 254]
    { old := .noDiff } ⟨worn, #[], #[]⟩ = x at hok ⊢
  obtain ⟨r, s'⟩ := x
  cases hok
  refine ⟨rfl, ((writeImage_undiffed ?_ ?_ ?_ ?_ ?_ ?_ hrun).1 ?_).2⟩
  · decide
  · decide
  · exact ⟨rfl, rfl⟩
  · rfl
  · rfl
  · rfl
  · decide

/-- **Stale contents that are reported as written**: a chip full of zeros is asked to hold the image
of an erased chip, and does not. -/
theorem writeImage_undiffed_stale :
    (writeImage device Chip.small (Image.blank 8 255) { old := .noDiff }
        ⟨withData { chip := Chip.small } (Image.blank 8 0), #[], #[]⟩).1 =
      .ok ⟨0, 0, 0, 0, 0, 0, 0, false, false⟩ ∧
    (writeImage device Chip.small (Image.blank 8 255) { old := .noDiff }
        ⟨withData { chip := Chip.small } (Image.blank 8 0), #[], #[]⟩).2.device.memory =
      Image.blank 8 0 ∧
    Image.blank 8 0 ≠ Image.blank 8 255 := by
  refine ⟨?_, ?_, ?_⟩
  all_goals decide +kernel

end Reflash.Emulator
