import Reflash.Proofs.Emulator.Execution
import Reflash.Proofs.Emulator.Success
import Reflash.Proofs.Requests

/-!
# A write does what it is asked to do

On a reliable chip without protected ranges, a write from contents that are true
succeeds, and the memory is the new image. A second write of the same image finds
nothing to do.

While blocks remain (`Remaining`), the copy of the contents is the memory, and every
byte that still has to change is in one of these blocks.

* `states_withData`: what is assumed of a chip holds of those that were made and used.
* `executePlan_writes`: an execution makes the memory the new image.
* `verifyExecuted_passes`: verification then passes, whatever it covers.
* `writeImage_roundTrip`: a write, and another one after it.
-/

namespace Reflash.Emulator

variable {e e' : Emulator} {b : Block} {chip : Chip} {policy : Policy} {new old : Image}
  {s : Session Emulator} {es : List Eraser} {options : WriteOptions} {mode : ExtentMode}

/-! ## Chips that were made -/

/-- **A chip that was made and used since**, with any contents and by any requests, is configured as
it was made. It emulates its chip, and is busy for good only by an address. -/
theorem states_withData (c : EmulatorConfig) (data : Image) (log : Array LogRecord)
    (events : Array Progress) (rs : List Request) :
    ∀ t ∈ Request.states device ⟨withData c data, log, events⟩ rs,
      t.device.config = c ∧ t.device.Emulates c.chip ∧ t.device.StuckByAddress := by
  intro t ht
  have halike : (withData c data).Alike t.device :=
    Request.states_keep (keeps_alike _) (Alike.refl _) rs t ht
  have hsize : (withData c data).memory.size = c.chip.totalSize :=
    Image.size_overlay.trans Array.size_replicate
  have hbusy : t.device.StuckByAddress :=
    Request.states_keep keeps_stuckByAddress (stuckByAddress_withData c data) rs t ht
  have hfollows : t.device.config.chip = c.chip := congrArg EmulatorConfig.chip halike.config
  exact ⟨halike.config, ⟨hfollows, halike.size.trans hsize⟩, hbusy⟩

/-- A chip that is made erased is made without contents. -/
example (c : EmulatorConfig) : create c = withData c #[] := rfl

/-! ## What the controller accepts -/

/-- A usable function that is not restricted is there to be used. -/
theorem eraseFunction_ok {c : EmulatorConfig} {i : ℕ} {f : EraseFunction}
    (hget : c.chip.eraseFunctions[i]? = some f) (husable : f.usable = true)
    (hfree : i ∉ c.restricted) : eraseFunction c i = .ok f := by
  unfold eraseFunction
  rw [hget]
  dsimp only
  rw [if_neg]
  rw [husable, Bool.not_true, Bool.or_false, List.contains_iff_mem]
  exact hfree

/-- A restricted function is refused. -/
theorem not_mem_restricted {c : EmulatorConfig} {i : ℕ} {f : EraseFunction}
    (h : eraseFunction c i = .ok f) : i ∉ c.restricted := by
  intro hi
  unfold eraseFunction at h
  split at h
  · rw [if_pos] at h
    · cases h
    · rw [List.contains_iff_mem.2 hi, Bool.true_or]
  · cases h

/-- The erase of a block of the function that it names is refused only because of protection. -/
theorem checkErase_legal (he : e.Emulates chip) (hb : b.Legal chip)
    (hfree : b.function ∉ e.config.restricted) :
    e.checkErase b.function b.start b.size = access e.config b.start b.size := by
  obtain ⟨f, hget, husable, hat⟩ := hb.function
  have hblock : ¬(b.size = 0 ∨ f.blockSizeAt? b.start ≠ some b.size ∨ b.start % b.size ≠ 0) := by
    rintro (h | h | h)
    · exact hb.pos.ne' h
    · exact h hat
    · exact h hb.aligned
  rw [checkErase_eq, eraseFunction_ok (he.follows.symm ▸ hget) husable hfree, Except.bind,
    if_neg hblock, checkWrite_inside (he.size.symm ▸ hb.inside)]

/-- Without protected ranges, it is not refused. -/
theorem checkErase_ok (he : e.Emulates chip) (hb : b.Legal chip)
    (hfree : b.function ∉ e.config.restricted) (hopen : e.config.protectedRanges = []) :
    e.checkErase b.function b.start b.size = .ok () :=
  (checkErase_legal he hb hfree).trans (access_open hopen _ _)

/-- Nor is any other command for the block. -/
theorem not_refuses {err : FlashError} (he : e.Emulates chip) (hb : b.Legal chip)
    (hfree : b.function ∉ e.config.restricted) (hopen : e.config.protectedRanges = []) :
    ¬e.Refuses b err := by
  rintro (h | ⟨w, -, h⟩)
  · rw [checkErase_ok he hb hfree hopen] at h
    cases h
  · rw [access_open hopen] at h
    cases h

/-! ## Which functions are selected -/

/-- In a dry run, a function is allowed exactly if the controller accepts it. -/
theorem dryRun_ends (chip : Chip) (i : ℕ) (h : e.Untouched s.device) :
    Ends (EraserFilter.dryRun device chip i) s fun r s' => e.Untouched s'.device ∧
      (r = true ↔ ∃ f, eraseFunction e.config i = .ok f) := by
  refine Ends.bind (R := fun r s' => e.Untouched s'.device ∧
    r = (eraseFunction e.config i).map fun _ => ()) ?_ ?_
  · refine ends_ask ⟨h, ?_⟩
    rw [← h.config]
    rfl
  · rintro _ s₁ ⟨h₁, rfl⟩
    cases eraseFunction e.config i with
    | ok f => exact ⟨h₁, iff_of_true rfl ⟨f, rfl⟩⟩
    | error err => exact ⟨h₁, iff_of_false Bool.false_ne_true (by rintro ⟨f, ⟨⟩⟩)⟩

/-- If there are restricted functions, only a dry run keeps them away. -/
theorem probe_vouches {probe : Bool} (chip : Chip)
    (hprobe : e.config.restricted = [] ∨ probe = true) :
    (if probe then EraserFilter.dryRun device else EraserFilter.all).Vouches chip e.Untouched
      fun i => i ∉ e.config.restricted := by
  cases probe with
  | true =>
    refine fun i s h => (dryRun_ends chip i h).mono fun r s' hr => ⟨hr.1, fun hallowed => ?_⟩
    obtain ⟨f, hf⟩ := hr.2.1 hallowed
    exact not_mem_restricted hf
  | false =>
    rw [hprobe.resolve_right Bool.false_ne_true]
    exact fun i s h => ⟨h, fun _ => List.not_mem_nil⟩

/-- A usable function that is not restricted is allowed in any case. -/
theorem probe_admits {i : ℕ} {f : EraseFunction} (hget : e.config.chip.eraseFunctions[i]? = some f)
    (husable : f.usable = true) (hfree : i ∉ e.config.restricted) (chip : Chip) (probe : Bool) :
    (if probe then EraserFilter.dryRun device else EraserFilter.all).Admits chip e.Untouched i := by
  cases probe with
  | true =>
    exact fun s h => (dryRun_ends chip i h).mono fun r s' hr =>
      ⟨hr.1, hr.2.2 ⟨f, eraseFunction_ok hget husable hfree⟩⟩
  | false => exact fun s h => ⟨h, rfl⟩

/-! ## Executing -/

/-- While these blocks remain, the copy is what the chip holds, no block was denied, every byte that
still has to change is in one of the blocks, and each of them can be erased. -/
structure Remaining (e : Emulator) (chip : Chip) (new : Image) (bs : List Block) (dev : Emulator)
    (current : Image) (stats : ExecutionStats) : Prop where
  holds : e.Holds current dev
  size : current.size = new.size
  denied : stats.denied = 0
  covered : ∀ a, current.byte a ≠ new.byte a → ∃ b ∈ bs, a ∈ b.span
  legal : ∀ b ∈ bs, b.function ∉ e.config.restricted ∧ b.Legal chip

/-- Without blocks left, the copy is the new image. -/
theorem Remaining.eq {current : Image} {stats : ExecutionStats}
    (h : e.Remaining chip new [] e' current stats) : current = new := by
  refine Image.ext_byte h.size fun a _ => ?_
  -- a byte that differs is in one of the blocks, of which there are none
  by_contra hne
  obtain ⟨b, hb, -⟩ := h.covered a hne
  cases hb

/-- Once the first block is what it should be, the bytes that still have to change are in the
others. -/
theorem Remaining.next {bs : List Block} {current : Image} {stats stats' : ExecutionStats}
    {e'' : Emulator} (h : e.Remaining chip new (b :: bs) e' current stats)
    (hb : b.start + b.size ≤ new.size) (hs : e'.Shows b (Image.slice new b.span) e'')
    (hdenied : stats'.denied = 0) :
    e.Remaining chip new bs e'' (Image.overlay current b.start (Image.slice new b.span))
      stats' := by
  have hsize : (Image.overlay current b.start (Image.slice new b.span)).size = new.size :=
    Image.size_overlay.trans h.size
  refine ⟨h.holds.overlay hs, hsize, hdenied, fun a ha => ?_,
    fun c hc => h.legal c (List.mem_cons_of_mem _ hc)⟩
  have hlt := Image.lt_size_of_ne hsize ha
  rw [Image.size_overlay] at hlt
  rw [Image.byte_overlay hlt, hs.size] at ha
  split at ha
  · -- inside the block, the new bytes are there already
    rename_i hin
    rw [Image.byte_slice (by dsimp only [Block.span]; omega)] at ha
    exact absurd (by rw [Block.span, Nat.add_sub_cancel' hin.1]) ha
  · rename_i hout
    obtain ⟨c, hc, hac⟩ := h.covered a ha
    rcases List.mem_cons.1 hc with rfl | hc
    · exact absurd hac hout
    · exact ⟨c, hc, hac⟩

/-- **One block** that can be erased is turned into what it should be, and the others remain. -/
theorem processBlock_writes {bs : List Block} {ex : Execution Emulator}
    {Q : Except ExecutionError Unit → Condition Emulator} (hc : Reliable e.config)
    (hbits : chip.BitsErased) (hopen : e.config.protectedRanges = []) (hchip : e.config.chip = chip)
    (hnew : new.size = chip.totalSize)
    (h : e.Remaining chip new (b :: bs) ex.session.device ex.current ex.stats) :
    Ends (processBlock device chip policy b (Image.slice new b.span)) (ex.enter b)
      (AfterBlock policy b ex.current (e.Remaining chip new bs) Q) := by
  obtain ⟨hfree, hb⟩ := h.legal b List.mem_cons_self
  have hconfig := h.holds.config
  have he : ex.session.device.Emulates chip :=
    ⟨by rw [hconfig, hchip], by rw [h.holds.memory, h.size, hnew]⟩
  have hinside := hnew ▸ hb.inside
  have hsync := h.holds.inSync (hinside.trans_eq h.size.symm)
  refine ((processBlock_shows (hconfig ▸ hc) he.follows hbits (he.size.symm ▸ hb.inside)
    (Image.size_slice hinside) hsync).and processBlock_counts).mono ?_
  rintro r ex' ⟨⟨hshows, hr⟩, -, hcount⟩
  have hdenied : ex'.stats.denied = 0 := hcount.trans h.denied
  cases r with
  | error err => exact absurd hr (not_refuses he hb (hconfig ▸ hfree) (hconfig ▸ hopen))
  | ok outcome =>
    unfold InSync at hshows
    dsimp only at hr
    rw [hr] at hshows
    simp only [AfterBlock]
    rw [hr]
    refine h.next hinside hshows ?_
    -- counting a block as skipped does not change how many are denied
    split
    · exact hdenied
    · exact hdenied

/-- **Blocks that can be erased**, and in which all changes lie, make the memory the new image. -/
theorem processBlocks_writes {bs : List Block} {done : ℕ} {ex : Execution Emulator}
    (hc : Reliable e.config) (hbits : chip.BitsErased) (hopen : e.config.protectedRanges = [])
    (hchip : e.config.chip = chip) (hnew : new.size = chip.totalSize)
    (h : e.Remaining chip new bs ex.session.device ex.current ex.stats) :
    Ends (processBlocks device chip policy new bs done) ex fun r ex' =>
      r = .ok () ∧ e.Holds new ex'.session.device ∧ ex'.stats.denied = 0 := by
  refine processBlocks_ends (J := e.Remaining chip new)
    (Q := fun r dev _ stats => r = .ok () ∧ e.Holds new dev ∧ stats.denied = 0) ?_ ?_ h
  · intro dev current stats hrem
    exact ⟨rfl, hrem.eq ▸ hrem.holds, hrem.denied⟩
  · intro b rest ex₁ hrem
    exact processBlock_writes hc hbits hopen hchip hnew hrem

/-- **An execution** whose blocks can be erased, and in which all changes lie, makes the memory the
new image. -/
theorem executePlan_writes {plan : Plan} (hc : Reliable e.config) (hbits : chip.BitsErased)
    (hopen : e.config.protectedRanges = []) (he : e.Emulates chip) (hready : e.stuckBusy = false)
    (hnew : plan.new.size = chip.totalSize)
    (hlegal : ∀ b ∈ plan.blocks, b.function ∉ e.config.restricted ∧ b.Legal chip)
    (hcovered : ∀ a, e.memory.byte a ≠ plan.new.byte a → ∃ b ∈ plan.blocks, a ∈ b.span)
    (h : e.Untouched s.device) :
    Ends (executePlan device chip plan e.memory policy) s fun r s' =>
      e.Holds plan.new s'.device ∧ ∃ stats, r.1 = .ok stats ∧ stats.denied = 0 := by
  have hsize : e.memory.size = plan.new.size := he.size.trans hnew.symm
  refine executePlan_ends (Q := fun r _ dev =>
    e.Holds plan.new dev ∧ ∃ stats, r = .ok stats ∧ stats.denied = 0) hsize fun t ht => ?_
  have hholds : e.Holds e.memory t.device :=
    ht ▸ ⟨h.config, h.stuckBusy.trans hready, h.memory⟩
  have hstart : e.Remaining chip plan.new plan.blocks t.device e.memory {} :=
    ⟨hholds, hsize, rfl, hcovered, hlegal⟩
  refine (processBlocks_writes hc hbits hopen he.follows hnew hstart).mono ?_
  rintro _ ex ⟨rfl, hnow, hdenied⟩
  exact ⟨hnow, ex.stats, rfl, hdenied⟩

/-! ## Verifying -/

/-- **Verification of a plan** passes in every mode if the memory is the new image. -/
theorem verifyPlan_passes {plan : Plan} (chip : Chip) (policy : Policy) (verify : VerifyMode)
    (hopen : e.config.protectedRanges = []) (hmemory : e.memory = plan.new)
    (hunits : ∀ u ∈ plan.units, u.stop ≤ e.memory.size) (h : e.Untouched s.device) :
    Ends (verifyPlan device chip plan verify policy) s fun r s' =>
      r = .ok () ∧ e.Untouched s'.device := by
  have hin : ∀ t ∈ plan.verified verify, t.stop ≤ e.memory.size := by
    rw [hmemory] at hunits ⊢
    exact fun t => verified_inside hunits
  refine (verifyPlan_open chip policy hopen (congrArg Array.size hmemory.symm) hin h).mono ?_
  rintro r s' ⟨h', hr⟩
  refine ⟨hr.2 fun t _ a _ => ?_, h'⟩
  rw [hmemory]

/-- After an execution that made the memory the new image, verification cannot fail. -/
theorem verifyExecuted_passes {plan : Plan} (chip : Chip) (options : WriteOptions)
    (stats : ExecutionStats) (hopen : e.config.protectedRanges = []) (hmemory : e.memory = plan.new)
    (hunits : ∀ u ∈ plan.units, u.stop ≤ e.memory.size) (h : e.Untouched s.device) :
    Ends (verifyExecuted device chip plan options stats) s fun r s' =>
      (∃ verified, r = .ok verified) ∧ e.Untouched s'.device := by
  refine verifyExecuted_ends
    (Q := fun r dev => (∃ verified, r = .ok verified) ∧ e.Untouched dev)
    (fun _ => ⟨⟨false, rfl⟩, h⟩) fun _ t ht => ?_
  have hpasses : Ends (verifyPlan device chip plan options.verify options.policy) t _ :=
    verifyPlan_passes chip options.policy options.verify hopen hmemory hunits (ht.symm ▸ h)
  refine hpasses.mono ?_
  rintro _ t' ⟨rfl, h'⟩
  exact ⟨⟨true, rfl⟩, h'⟩

/-! ## Programming -/

/-- A plan is made if the chip has a usable function that is not restricted. -/
theorem make_emulated (hu : chip.Uniform) (hs : chip.Sound) (he : e.Emulates chip) {i : ℕ}
    {f : EraseFunction} (hget : chip.eraseFunctions[i]? = some f) (husable : f.usable = true)
    (hfree : i ∉ e.config.restricted) (hnew : new.size = chip.totalSize) (probe : Bool)
    (h : e.Untouched s.device) :
    Ends (Plan.make chip e.memory new mode
      (if probe then EraserFilter.dryRun device else EraserFilter.all)) s fun r s' =>
        e.Untouched s'.device ∧ ∃ es, r = .ok (Plan.ofErasers chip e.memory new es) ∧ es ≠ [] ∧
          Nested es ∧ ∀ o ∈ es, chip.Offers o := by
  have hadmits := probe_admits (he.follows.symm ▸ hget) husable hfree chip probe
  have hvouches := vouches_probe (readsKeep_untouched e) chip probe
  refine (make_uniform hu hs he.size hnew hvouches hget husable hadmits h).mono ?_
  rintro _ s' ⟨h', es, rfl, hne, hes, hoffers⟩
  exact ⟨h', es, rfl, hne, hes, fun o ho => (hoffers o ho).2⟩

/-- **Programming a reliable chip**, from contents that are those of the chip. -/
theorem program_writes (hu : chip.Uniform) (hs : chip.Sound) (hbits : chip.BitsErased)
    (he : e.Emulates chip) (hc : Reliable e.config) (hready : e.stuckBusy = false)
    (hopen : e.config.protectedRanges = []) {i : ℕ} {f : EraseFunction}
    (hget : chip.eraseFunctions[i]? = some f) (husable : f.usable = true)
    (hfree : i ∉ e.config.restricted)
    (hprobe : e.config.restricted = [] ∨ options.probeErasers = true)
    (hnew : new.size = chip.totalSize) (h : e.Untouched s.device) :
    Ends (program device chip e.memory new mode options) s fun r s' =>
      ∃ summary, r = .ok summary ∧ summary.denied = 0 ∧ e.Holds new s'.device := by
  have hadmits := probe_admits (he.follows.symm ▸ hget) husable hfree chip options.probeErasers
  refine program_ends
    (R := fun r dev => e.Untouched dev ∧ ∃ es, r = .ok (Plan.ofErasers chip e.memory new es) ∧
      es ≠ [] ∧ Nested es ∧ ∀ o ∈ es, o.function ∉ e.config.restricted ∧ chip.Offers o)
    (Q := fun r dev => ∃ summary, r = .ok summary ∧ summary.denied = 0 ∧ e.Holds new dev)
    (make_uniform hu hs he.size hnew (probe_vouches chip hprobe) hget husable hadmits h) ?_ ?_ ?_
  · rintro err dev ⟨-, es, ⟨⟩, -⟩
  · rintro _ dev ⟨hdev, es, ⟨⟩, hne, hes, hoffers⟩ hnil
    -- without units the memory is the new image already
    have heq : e.memory = new :=
      eq_of_units_eq_nil hu hs hes hne (fun o ho => (hoffers o ho).2) he.size hnew hnil
    exact ⟨_, rfl, rfl, hdev.config, hdev.stuckBusy.trans hready, hdev.memory.trans heq⟩
  · rintro _ s₁ ⟨hdev, es, ⟨⟩, hne, hes, hoffers⟩ -
    have hcovered := fun a => covered_ofErasers (a := a) hu hs hes hne
      (fun o ho => (hoffers o ho).2) he.size hnew
    have hwell := wellFormed_ofErasers hes he.size hnew
    refine executeAssessed_ends ((executePlan_writes hc hbits hopen he hready hnew
      (fun b hb => legal_ofErasers (A := fun i => i ∉ e.config.restricted) hu hs hes hoffers
        he.size hnew hb) hcovered hdev).mono ?_)
    rintro ⟨_, image⟩ s₂ ⟨hholds, stats, ⟨⟩, hdenied⟩
    have hunits : ∀ u ∈ (Plan.ofErasers chip e.memory new es).units,
        u.stop ≤ s₂.device.memory.size := by
      intro u hu
      have hsize := congrArg Array.size hholds.memory
      exact (hwell.inside u hu).trans_eq (hsize.trans hnew).symm
    refine (verifyExecuted_passes chip options stats (hholds.config ▸ hopen) hholds.memory hunits
      (Untouched.refl _)).mono ?_
    rintro _ s₃ ⟨⟨verified, rfl⟩, h₃⟩
    exact ⟨_, rfl, hdenied, hholds.untouched h₃⟩

/-- **Programming what the chip already holds** does nothing. -/
theorem program_idle (hu : chip.Uniform) (hs : chip.Sound) (he : e.Emulates chip) {i : ℕ}
    {f : EraseFunction} (hget : chip.eraseFunctions[i]? = some f) (husable : f.usable = true)
    (hfree : i ∉ e.config.restricted) (h : e.Untouched s.device) :
    Ends (program device chip e.memory e.memory mode options) s fun r s' =>
      ∃ summary, r = .ok summary ∧ summary.units = 0 ∧ summary.modified = false ∧
        e.Untouched s'.device := by
  refine program_ends
    (R := fun r dev => e.Untouched dev ∧ ∃ es, r = .ok (Plan.ofErasers chip e.memory e.memory es) ∧
      es ≠ [] ∧ Nested es ∧ ∀ o ∈ es, chip.Offers o)
    (Q := fun r dev => ∃ summary, r = .ok summary ∧ summary.units = 0 ∧ summary.modified = false ∧
      e.Untouched dev)
    (make_emulated hu hs he hget husable hfree he.size options.probeErasers h) ?_ ?_ ?_
  · rintro err dev ⟨-, es, ⟨⟩, -⟩
  · rintro _ dev ⟨hdev, es, ⟨⟩, -⟩ -
    exact ⟨_, rfl, rfl, rfl, hdev⟩
  · rintro _ s₁ ⟨-, es, ⟨⟩, -, hes, -⟩ hne
    -- a plan from an image to itself has no units
    exact absurd (units_self hes he.size) hne

/-! ## The whole of a write -/

/-- A write of an image that the chip already holds, with the chip read, does nothing. -/
theorem writeImage_idle (hu : chip.Uniform) (hs : chip.Sound) (he : e.Emulates chip) {i : ℕ}
    {f : EraseFunction} (hget : chip.eraseFunctions[i]? = some f) (husable : f.usable = true)
    (hfree : i ∉ e.config.restricted) (hread : options.old = .readChip) (h : e.Untouched s.device) :
    Ends (writeImage device chip e.memory options) s fun r s' =>
      ∃ summary, r = .ok summary ∧ summary.units = 0 ∧ summary.modified = false ∧
        e.Untouched s'.device := by
  have htells : options.old.Tells chip e.memory := by
    rw [hread]
    trivial
  refine writeImage_ends (Q := fun r dev => ∃ summary, r = .ok summary ∧ summary.units = 0 ∧
    summary.modified = false ∧ e.Untouched dev) (fun err hsize => absurd he.size hsize) fun _ => ?_
  refine (oldContents_ends htells he.size h).mono ?_
  rintro _ s₁ ⟨⟨mode, rfl⟩, h₁⟩ t ht
  exact program_idle hu hs he hget husable hfree (ht ▸ h₁)

/-- A reliable small chip that is slow and refuses to erase blocks of two bytes. -/
def slow : Emulator :=
  withData { chip := Chip.small, restricted := [1], busyPolls := 999 }
    #[255, 255, 9, 9, 255, 0, 255, 255]

/-- **A write does what it is asked to do.** On a reliable chip without protected ranges, with true
old contents, and with a dry run if there are restricted functions, a write succeeds without a
denied block, and the memory is the new image. If the chip is then read and written with the same
image again, nothing is planned, erased or written. -/
theorem writeImage_roundTrip (hvalid : chip.validate = .ok ()) (hu : chip.Uniform)
    (hbits : chip.BitsErased) (he : s.device.Emulates chip) (hbusy : s.device.StuckByAddress)
    (hc : Reliable s.device.config) (hopen : s.device.config.protectedRanges = [])
    (hfun : ∃ i f, chip.eraseFunctions[i]? = some f ∧ f.usable = true ∧
      i ∉ s.device.config.restricted)
    (hprobe : s.device.config.restricted = [] ∨ options.probeErasers = true)
    (hold : options.old.Tells chip s.device.memory) (hnew : new.size = chip.totalSize) :
    ∃ summary s', writeImage device chip new options s = (.ok summary, s') ∧
      summary.denied = 0 ∧ s'.device.memory = new ∧
      ∀ again : WriteOptions, again.old = .readChip →
        ∃ summary' s'', writeImage device chip new again s' = (.ok summary', s'') ∧
          summary'.units = 0 ∧ summary'.modified = false ∧ s'.device.Untouched s''.device := by
  have hs := Chip.validate_iff.1 hvalid
  have hready : s.device.stuckBusy = false :=
    Bool.eq_false_iff.2 fun hstuck => hbusy hstuck hc.stuckBusyAt
  obtain ⟨i, f, hget, husable, hfree⟩ := hfun
  have hfirst : Ends (writeImage device chip new options) s fun r s' =>
      ∃ summary, r = .ok summary ∧ summary.denied = 0 ∧ s.device.Holds new s'.device := by
    refine writeImage_ends (Q := fun r dev =>
      ∃ summary, r = .ok summary ∧ summary.denied = 0 ∧ s.device.Holds new dev)
      (fun err hsize => absurd hnew hsize) fun _ => ?_
    refine (oldContents_ends hold he.size (Untouched.refl _)).mono ?_
    rintro _ s₁ ⟨⟨mode, rfl⟩, h₁⟩ t ht
    exact program_writes hu hs hbits he hc hready hopen hget husable hfree hprobe hnew (ht ▸ h₁)
  obtain ⟨summary, s', hrun, hdenied, hholds⟩ := hfirst.run
  refine ⟨summary, s', hrun, hdenied, hholds.memory, fun again hread => ?_⟩
  have he' : s'.device.Emulates chip :=
    ⟨hholds.config ▸ he.follows, (congrArg Array.size hholds.memory).trans hnew⟩
  have hagain : Ends (writeImage device chip s'.device.memory again) s' _ :=
    writeImage_idle hu hs he' hget husable (hholds.config ▸ hfree) hread (Untouched.refl _)
  rw [hholds.memory] at hagain
  exact hagain.run

/-- The slow chip takes the image, although its finer blocks cannot be erased. Then it holds it. -/
theorem writeImage_roundTrip_slow : ∃ summary s' summary' s'',
    writeImage device Chip.small smallImage { probeErasers := true, verify := .off }
      ⟨slow, #[], #[]⟩ = (.ok summary, s') ∧
    writeImage device Chip.small smallImage {} s' = (.ok summary', s'') ∧
    s'.device.memory = smallImage ∧ summary.denied = 0 ∧ summary'.units = 0 := by
  obtain ⟨summary, s', hrun, hdenied, hmemory, hagain⟩ :=
    @writeImage_roundTrip Chip.small smallImage ⟨slow, #[], #[]⟩
      { probeErasers := true, verify := .off } (by decide) (by decide) (fun h => by cases h)
      ⟨rfl, rfl⟩ (stuckByAddress_withData _ _) ⟨rfl, rfl, by decide⟩ rfl
      ⟨0, .uniform 4 2, rfl, rfl, by decide⟩ (.inr rfl) trivial rfl
  obtain ⟨summary', s'', hrun', hunits, -⟩ := hagain {} rfl
  exact ⟨summary, s', summary', s'', hrun, hrun', hmemory, hdenied, hunits⟩

end Reflash.Emulator
