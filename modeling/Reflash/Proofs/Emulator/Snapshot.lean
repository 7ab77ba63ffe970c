import Reflash.Proofs.Emulator.Execution
import Reflash.Proofs.Emulator.Success

/-!
# The copy of the contents

An execution decides from a copy of the contents what to erase and what to write. On
a reliable chip that copy is the memory before and after every block, whether the
block was processed, denied or given up on. So it is the memory at the end as well,
with or without an error, and whatever old contents the plan was made from.

* `processBlock_holds`: one block.
* `processBlocks_holds`: all blocks, also if one of them ends the execution.
* `executePlan_snapshot`: every plan.
-/

namespace Reflash.Emulator

variable {e : Emulator} {s : Session Emulator} {ex : Execution Emulator} {b : Block} {chip : Chip}
  {policy : Policy} {old new : Image}

/-- **After a block**, however it ended: with its part put back, the copy is the memory. -/
theorem processBlock_holds (hc : Reliable e.config) (hchip : e.config.chip = chip)
    (hbits : chip.BitsErased) (hb : b.start + b.size ≤ new.size)
    (hsize : ex.current.size = new.size) (h : e.Holds ex.current ex.session.device) :
    Ends (processBlock device chip policy b (Image.slice new b.span)) (ex.enter b) fun _ ex' =>
      e.Holds (Image.overlay ex.current b.start ex'.current) ex'.session.device := by
  have hin : b.start + b.size ≤ ex.current.size := hb.trans_eq hsize.symm
  have hshows : Ends (processBlock device chip policy b (Image.slice new b.span)) (ex.enter b) _ :=
    processBlock_shows (h.config ▸ hc) (h.config ▸ hchip) hbits (h.memory.symm ▸ hin)
      (Image.size_slice hb) (h.inSync hin)
  refine hshows.mono ?_
  rintro r ex' ⟨hsync, -⟩
  exact h.overlay hsync

/-- **After any blocks on the chip**, the copy is the memory. -/
theorem processBlocks_holds {bs : List Block} {done : ℕ} (hc : Reliable e.config)
    (hchip : e.config.chip = chip) (hbits : chip.BitsErased)
    (hbs : ∀ b ∈ bs, b.start + b.size ≤ new.size) (hsize : ex.current.size = new.size)
    (h : e.Holds ex.current ex.session.device) :
    Ends (processBlocks device chip policy new bs done) ex fun _ ex' =>
      e.Holds ex'.current ex'.session.device := by
  refine processBlocks_ends
    (J := fun rest dev current _ => e.Holds current dev ∧ current.size = new.size ∧
      ∀ b ∈ rest, b.start + b.size ≤ new.size)
    (Q := fun _ dev current _ => e.Holds current dev) (fun _ _ _ h' => h'.1) ?_ ⟨h, hsize, hbs⟩
  rintro b rest ex₁ ⟨h₁, hsize₁, hin⟩
  obtain ⟨hb, hrest⟩ := List.forall_mem_cons.1 hin
  refine (processBlock_holds hc hchip hbits hb hsize₁ h₁).mono fun r ex₂ h₂ => ?_
  have hsize₂ : (Image.overlay ex₁.current b.start ex₂.current).size = new.size :=
    Image.size_overlay.trans hsize₁
  -- a block that fails is denied, or it ends the execution
  exact afterBlock_of (fun _ _ _ => ⟨h₂, hsize₂, hrest⟩) fun _ _ _ => h₂

/-- A small chip with a protected range in its second half, on which one erase function is
refused. -/
def guarded : Emulator :=
  withData { chip := Chip.small, protectedRanges := [⟨5, 6⟩], restricted := [1], busyPolls := 7 }
    #[255, 255, 9, 9, 255, 0, 7, 255]

/-- **The copy of the contents is the memory at the end of every execution** on a reliable chip,
whatever is protected or refused, if it was the memory at the start. The plan may have been made
from other contents, and the execution may fail at any point. -/
theorem executePlan_snapshot {σ : Type} {filter : EraserFilter σ} {t : Session σ} {extent : ℕ}
    {plan : Plan} (hplan : (Plan.prepare chip old new extent filter t).1 = .ok plan)
    (hbits : chip.BitsErased) (he : s.device.Emulates chip) (hbusy : s.device.StuckByAddress)
    (hc : Reliable s.device.config) (policy : Policy) :
    ∃ r current s', executePlan device chip plan s.device.memory policy s = ((r, current), s') ∧
      current = s'.device.memory := by
  have hready : s.device.stuckBusy = false :=
    Bool.eq_false_iff.2 fun hstuck => hbusy hstuck hc.stuckBusyAt
  obtain ⟨hold, hnew, es, -, -, hes, rfl⟩ := prepare_eq hplan
  have hwell : (Plan.ofErasers chip old new es).WellFormed chip.totalSize :=
    wellFormed_ofErasers hes hold hnew
  have hrun : Ends (executePlan device chip (Plan.ofErasers chip old new es) s.device.memory policy)
      s fun r s' => s.device.Holds r.2 s'.device := by
    refine executePlan_ends (Q := fun _ current dev => s.device.Holds current dev)
      (he.size.trans hnew.symm) fun u hu => ?_
    refine processBlocks_holds hc he.follows hbits (fun b hb => ?_) (he.size.trans hnew.symm) ?_
    · exact (hwell.blocks_inside hb).trans_eq hnew.symm
    · exact ⟨congrArg config hu, (congrArg stuckBusy hu).trans hready, congrArg memory hu⟩
  exact ⟨_, _, _, rfl, hrun.memory.symm⟩

/-- A plan for other contents than those of the chip: the first block is erased and written, the
second one is denied. -/
theorem executePlan_snapshot_guarded : ∃ plan stats current s',
    (Plan.prepare Chip.small (Image.blank 8 0) smallImage 8 EraserFilter.all
      (⟨(), #[], #[]⟩ : Session Unit)).1 = .ok plan ∧
    executePlan device Chip.small plan guarded.memory {} ⟨guarded, #[], #[]⟩ =
      ((.ok stats, current), s') ∧
    stats.denied = 1 ∧ stats.erases = 1 ∧ current = s'.device.memory := by
  have hstats : (executePlan device Chip.small
      ⟨Image.blank 8 0, smallImage, [⟨4, 0, 2, 0, 0⟩]⟩ guarded.memory {} ⟨guarded, #[], #[]⟩).1.1 =
      .ok ⟨2, 0, 1, 1, 4, 1, 4, true⟩ := by decide +kernel
  obtain ⟨r, current, s', hrun, heq⟩ := @executePlan_snapshot ⟨guarded, #[], #[]⟩ Chip.small
    (Image.blank 8 0) smallImage Unit EraserFilter.all ⟨(), #[], #[]⟩ 8
    ⟨Image.blank 8 0, smallImage, [⟨4, 0, 2, 0, 0⟩]⟩ rfl (fun h => by cases h) ⟨rfl, rfl⟩
    (stuckByAddress_withData _ _) ⟨rfl, rfl, by decide⟩ {}
  dsimp only at hrun
  rw [hrun] at hstats
  dsimp only at hstats
  subst hstats
  exact ⟨_, _, current, s', rfl, hrun, rfl, rfl, heq⟩

end Reflash.Emulator
