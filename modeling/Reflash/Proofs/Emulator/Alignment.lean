import Reflash.Proofs.Emulator.Acceptance
import Reflash.Proofs.Emulator.Atomicity

/-!
# Which erases a chip accepts

An erase has to be as long as the block at its address, and it has to start at a multiple of
its length. That is not what makes it one block: a region whose start is no multiple of its
block size has blocks that are refused, and the erase that is accepted in their place reaches
over the border between two of them.

* `erase_ok_iff`: the erases that a chip without faults carries out.
* `erase_layout_iff`: they are the blocks of the layout exactly if these are aligned.
* `erase_shifted`: a chip without defects with a layout that is not aligned.
-/

namespace Reflash.Emulator

variable {e : Emulator} {chip : Chip} {f : EraseFunction} {a i n : ℕ}

/-- Without faults, no command makes the chip stall. -/
theorem Faultless.not_stalls (he : e.Faultless chip) (c : Command) : ¬e.Stalls c := by
  rintro (hstuck | ⟨a, -, ha⟩ | hpolls)
  · rw [he.ready] at hstuck
    cases hstuck
  · rw [he.reliable.stuckBusyAt] at ha
    cases ha
  · have hmax := he.reliable.polls
    have hleast := c.le_patience
    omega

/-- Without faults, the commands that succeed are those that nothing speaks against. -/
theorem perform_ok_iff (he : e.Faultless chip) (c : Command) :
    (device.perform c e).result = .ok () ↔ e.Permits c := by
  have hatomic := (perform_atomic e c).2
  constructor
  · intro hok
    by_contra hno
    obtain ⟨err, herr, -⟩ := hatomic.2 hno
    rw [hok] at herr
    cases herr
  · intro hpermits
    obtain ⟨hends, hlate⟩ := perform_late_iff hpermits
    exact hends.resolve_right fun h => he.not_stalls c (hlate.1 h)

/-- **The erases that are carried out** are as long as the block at their address, start at a multiple
of their length, and end on the chip. -/
theorem erase_ok_iff (he : e.Faultless chip) (hget : chip.eraseFunctions[i]? = some f)
    (husable : f.usable = true) : (device.erase i a n e).result = .ok () ↔
      0 < n ∧ f.blockSizeAt? a = some n ∧ n ∣ a ∧ a + n ≤ chip.totalSize := by
  have hfits : Fits e.config (.erase i a n) ↔ 0 < n ∧ f.blockSizeAt? a = some n ∧ n ∣ a := by
    unfold Fits
    dsimp only
    rw [he.unrestricted, he.emulates.follows, hget]
    simp [husable]
  have hall := perform_ok_iff he (.erase i a n)
  rw [Device.perform] at hall
  rw [hall]
  constructor
  · intro h
    obtain ⟨hpos, hat, hdvd⟩ := hfits.1 h.fits
    have hin : a + n ≤ e.memory.size := h.inside
    exact ⟨hpos, hat, hdvd, he.emulates.size ▸ hin⟩
  · rintro ⟨hpos, hat, hdvd, hin⟩
    refine ⟨hfits.2 ⟨hpos, hat, hdvd⟩, ?_, ?_⟩
    · show a + n ≤ e.memory.size
      rwa [he.emulates.size]
    · rw [he.unprotected]
      simp

/-- **Which erases a chip without faults accepts.** For every usable function of a chip without
defects, these are the ones from a multiple of their length on that have the length of the block at
their address and end on the chip. Any other erase is refused and changes nothing. So the function
erases exactly its blocks if, and only if, each of its regions starts at a multiple of its block
size. -/
theorem erase_layout_iff (hvalid : chip.validate = .ok ()) (he : e.Faultless chip)
    (hget : chip.eraseFunctions[i]? = some f) (husable : f.usable = true) :
    (∀ a n, (device.erase i a n e).result = .ok () ↔
      ∃ t ∈ f.layout, a ∈ t ∧ t.len = n ∧ n ∣ a ∧ a + n ≤ chip.totalSize) ∧
    (∀ a n, (device.erase i a n e).result ≠ .ok () →
      ∃ err, device.erase i a n e = .quiet (.error err) e) ∧
    ((∀ a n, (device.erase i a n e).result = .ok () ↔ ⟨a, n⟩ ∈ f.layout) ↔
      ∀ k r, f.regions[k]? = some r → 0 < r.count → r.size ∣ f.regionStart k) := by
  have hsound := Chip.validate_iff.1 hvalid
  have hf : f ∈ chip.eraseFunctions := List.mem_of_getElem? hget
  obtain ⟨first, hfirst, hpos, hle, htotal⟩ := hsound.first hf husable
  have hok : ∀ a n, (device.erase i a n e).result = .ok () ↔
      ∃ t ∈ f.layout, a ∈ t ∧ t.len = n ∧ n ∣ a ∧ a + n ≤ chip.totalSize := by
    intro a n
    rw [erase_ok_iff he hget husable, EraseFunction.blockSizeAt?_eq_some_iff]
    constructor
    · rintro ⟨-, ⟨t, ht, ha, hlen⟩, hdvd, hin⟩
      exact ⟨t, ht, ha, hlen, hdvd, hin⟩
    · rintro ⟨t, ht, ha, hlen, hdvd, hin⟩
      have hmem := Span.mem_def.1 ha
      exact ⟨by omega, ⟨t, ht, ha, hlen⟩, hdvd, hin⟩
  refine ⟨hok, fun a n hno => ?_, ?_⟩
  · cases hcheck : e.checkErase i a n with
    | error err => exact ⟨err, erase_refused hcheck⟩
    | ok _ =>
      have hpermits : e.Permits (.erase i a n) := check_eq_ok_iff.1 hcheck
      exact absurd ((perform_ok_iff he _).2 hpermits) hno
  · rw [← EraseFunction.aligned_iff]
    constructor
    · -- a block that is accepted starts at a multiple of its size
      intro hexact t ht
      obtain ⟨-, -, -, -, hdvd, -⟩ := (hok t.start t.len).1 ((hexact t.start t.len).2 ht)
      exact hdvd
    · intro haligned a n
      rw [hok]
      constructor
      · rintro ⟨t, ht, ha, rfl, hdvd, -⟩
        rwa [← haligned.start_eq ht ha hdvd]
      · intro ht
        have hstop := EraseFunction.stop_le_total ht
        exact ⟨⟨a, n⟩, ht, hsound.start_mem hf ht, rfl, haligned _ ht, htotal ▸ hstop⟩

/-- The chip with small blocks at its start erases its blocks and nothing else. -/
theorem erase_layout_iff_boot :
    bootChip.validate = .ok () ∧ (create { chip := bootChip }).Faultless bootChip ∧
    ∀ a n, (device.erase 0 a n (create { chip := bootChip })).result = .ok () ↔
      ⟨a, n⟩ ∈ [(⟨0, 1⟩ : Span), ⟨1, 1⟩, ⟨2, 2⟩, ⟨4, 2⟩, ⟨6, 2⟩] := by
  have hfaultless : (create { chip := bootChip }).Faultless bootChip :=
    ⟨⟨rfl, rfl⟩, ⟨rfl, rfl, by decide⟩, rfl, rfl, rfl⟩
  have haligned : (EraseFunction.ofRegions [⟨1, 2⟩, ⟨2, 3⟩]).Aligned := by decide
  have hall := erase_layout_iff (i := 0) (f := .ofRegions [⟨1, 2⟩, ⟨2, 3⟩]) rfl hfaultless rfl rfl
  exact ⟨rfl, hfaultless, hall.2.2.2 (EraseFunction.aligned_iff.1 haligned)⟩

/-- A chip whose larger block lies between small ones, where it is not aligned. -/
def shiftedChip : Chip where
  vendor := "Sample"
  name := "H8"
  totalSize := 8
  pageSize := 4
  granularity := .byte
  eraseFunctions := [.ofRegions [⟨2, 1⟩, ⟨4, 1⟩, ⟨2, 1⟩]]

/-- **A block that is refused, and an erase of no block that is accepted**: the block of four bytes at
address two is misaligned, and at address four an erase of four bytes goes through, which takes the
second half of that block and the small one behind it. -/
theorem erase_shifted : shiftedChip.validate = .ok () ∧
    (withData { chip := shiftedChip } (Image.blank 8 0)).Faultless shiftedChip ∧
    (EraseFunction.ofRegions [⟨2, 1⟩, ⟨4, 1⟩, ⟨2, 1⟩]).usable = true ∧
    ⟨2, 4⟩ ∈ (EraseFunction.ofRegions [⟨2, 1⟩, ⟨4, 1⟩, ⟨2, 1⟩]).layout ∧
    (device.erase 0 2 4 (withData { chip := shiftedChip } (Image.blank 8 0))).result =
      .error .misaligned ∧
    ⟨4, 4⟩ ∉ (EraseFunction.ofRegions [⟨2, 1⟩, ⟨4, 1⟩, ⟨2, 1⟩]).layout ∧
    (device.erase 0 4 4 (withData { chip := shiftedChip } (Image.blank 8 0))).result = .ok () ∧
    (device.erase 0 4 4 (withData { chip := shiftedChip } (Image.blank 8 0))).device.memory =
      #[0, 0, 0, 0, 255, 255, 255, 255] := by
  refine ⟨rfl, ⟨⟨rfl, rfl⟩, ⟨rfl, rfl, by decide⟩, rfl, rfl, rfl⟩, rfl, by decide, rfl, by decide,
    rfl, by decide +kernel⟩

end Reflash.Emulator
