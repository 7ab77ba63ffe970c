import Reflash.Proofs.Emulator.RoundTrip
import Reflash.Proofs.Plan.Legality

/-!
# Plans that a chip accepts

A chip without faults erases each block of a plan if the block is one of the layout of
the function that the plan names. Which chips have this for all their plans depends on
the layouts of their functions.

* `erase_accepted`: the erase of a block of the layout succeeds.
* `make_legal_iff`: all plans for a chip are legal exactly if its functions are even.
* `make_boot`: a chip without defects for which they are not.
-/

namespace Reflash.Emulator

variable {e : Emulator} {chip : Chip} {b : Block}

/-- A reliable chip that is ready, protects nothing and refuses no erase function. -/
structure Faultless (e : Emulator) (chip : Chip) : Prop where
  emulates : e.Emulates chip
  reliable : Reliable e.config
  ready : e.stuckBusy = false
  unprotected : e.config.protectedRanges = []
  unrestricted : e.config.restricted = []

/-- **The erase of a block of the function it names** succeeds. -/
theorem erase_accepted (he : e.Faultless chip) (hb : b.Legal chip) :
    (device.erase b.function b.start b.size e).result = .ok () := by
  have hfree : b.function ∉ e.config.restricted := by
    rw [he.unrestricted]
    exact List.not_mem_nil
  obtain ⟨hcarried, hresult⟩ :=
    erase_carriedOut (checkErase_ok he.emulates hb hfree he.unprotected)
  have hbusy := hcarried.stuckBusy
  rw [he.ready, he.reliable.stuckBusyAt] at hbusy
  refine hresult.trans (if_neg ?_)
  rintro (hstuck | hpolls)
  · rw [hbusy] at hstuck
    cases hstuck
  · exact absurd (Nat.le_trans (by decide) hpolls) (Nat.not_le.2 he.reliable.polls)

/-- A chip with small blocks at its start and larger ones behind them. -/
def bootChip : Chip where
  vendor := "Sample"
  name := "B8"
  totalSize := 8
  pageSize := 4
  granularity := .byte
  eraseFunctions := [.ofRegions [⟨1, 2⟩, ⟨2, 3⟩]]

/-- Every block of every plan, for all images, extent modes and filters, is one of the layout of the
function that it names, and a chip without faults carries out its erase. -/
def PlansLegal (chip : Chip) : Prop :=
  ∀ (σ : Type) (filter : EraserFilter σ) (s : Session σ) (old new : Image) (mode : ExtentMode)
    (plan : Plan), (Plan.make chip old new mode filter s).1 = .ok plan →
    ∀ b ∈ plan.blocks, b.Fits chip ∧ b.Legal chip ∧
      ∀ e : Emulator, e.Faultless chip → (device.erase b.function b.start b.size e).result = .ok ()

/-- **All plans are legal exactly if the erase functions are even**, for a chip without defects. -/
theorem make_legal_iff (hvalid : chip.validate = .ok ()) :
    PlansLegal chip ↔
      ∀ f ∈ chip.eraseFunctions, f.usable = true → f.EvenOver chip.totalSize := by
  have hsound := Chip.validate_iff.1 hvalid
  constructor
  · intro hlegal f hf husable
    obtain ⟨i, hget⟩ := List.mem_iff_getElem?.1 hf
    refine evenOver_of_fits hsound hget husable (⟨(), #[], #[]⟩ : Session Unit) ?_
    exact fun plan hplan b hb => (hlegal _ _ _ _ _ _ plan hplan b hb).1
  · intro heven σ filter s old new mode plan hplan b hb
    obtain ⟨hfits, hlegal⟩ := fits_of_even hsound heven hplan hb
    exact ⟨hfits, hlegal, fun e he => erase_accepted he hlegal⟩

/-- Not all plans for the chip with small blocks at its start are legal. -/
theorem make_legal_iff_boot : bootChip.validate = .ok () ∧ ¬PlansLegal bootChip := by
  refine ⟨rfl, fun hlegal => ?_⟩
  obtain ⟨first, hfirst, hgrid⟩ :=
    (make_legal_iff rfl).1 hlegal _ (List.mem_singleton_self _) rfl
  cases hfirst
  -- a third small block would have to start where the large ones do
  exact absurd (hgrid 2 (by decide)) (by decide)

/-- **An erase that is refused**: the first blocks are small, but the plan takes larger ones from
address zero on, because the region that they come from covers what changes. -/
theorem make_boot : bootChip.validate = .ok () ∧
    (∃ plan, (Plan.make bootChip (Image.blank 8 0) #[1, 1, 1, 1, 1, 1, 0, 0] .diff EraserFilter.all
        (⟨(), #[], #[]⟩ : Session Unit)).1 = .ok plan ∧ ⟨0, 2, 0⟩ ∈ plan.blocks) ∧
    ¬(Block.mk 0 2 0).Fits bootChip ∧
    (withData { chip := bootChip } (Image.blank 8 0)).Faultless bootChip ∧
    (device.erase 0 0 2 (withData { chip := bootChip } (Image.blank 8 0))).result =
      .error .misaligned := by
  refine ⟨rfl, ⟨_, rfl, by decide⟩, ?_, ⟨⟨rfl, rfl⟩, ⟨rfl, rfl, by decide⟩, rfl, rfl, rfl⟩, rfl⟩
  rintro ⟨f, hget, -, hmem⟩
  cases hget
  exact absurd hmem (by decide)

end Reflash.Emulator
