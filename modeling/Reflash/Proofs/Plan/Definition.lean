import Reflash.Proofs.Execution.Changes
import Reflash.Proofs.Plan.Blocks

/-!
# A plan and its definition

With the selected erasers known, a plan is determined: it is made, and it has the
planned blocks of every level and no others. In each of them some byte changes, so
that an execution which starts from the old contents skips none.

* `allChange_ofErasers`: the blocks of a plan all change.
* `prepare_declarative`: the plan and its blocks.
-/

namespace Reflash

open Comparison

variable {σ : Type} {chip : Chip} {old new : Image} {extent : ℕ} {filter : EraserFilter σ}
  {s : Session σ} {es : List Eraser}

/-- **The blocks of a plan** are on the chip, have no common address, and all change. -/
theorem allChange_ofErasers (hes : Nested es) (hold : old.size = chip.totalSize)
    (hnew : new.size = chip.totalSize) :
    AllChange new (Plan.ofErasers chip old new es).blocks old := by
  have hwell := wellFormed_ofErasers hes hold hnew
  refine ⟨hold.trans hnew.symm, fun b hb => ?_, hwell.blocks_disjoint, fun b hb => ?_⟩
  · exact (hwell.blocks_inside hb).trans_eq hnew.symm
  · exact differs_of_mem_blocks hes hold hnew hb

/-- From the old contents, no block of a plan is skipped, whatever the device does. -/
theorem executePlan_skipped {τ : Type} (d : Device τ) (policy : Policy) (t : Session τ)
    (hes : Nested es) (hold : old.size = chip.totalSize) (hnew : new.size = chip.totalSize)
    {stats : ExecutionStats}
    (h : (executePlan d chip (Plan.ofErasers chip old new es) old policy t).1.1 = .ok stats) :
    stats.skipped = 0 := by
  have hall := allChange_ofErasers hes hold hnew
  have hrun : Ends (executePlan d chip (Plan.ofErasers chip old new es) old policy) t fun r _ =>
      ∀ stats, r.1 = .ok stats → stats.skipped = 0 := by
    refine executePlan_ends (Q := fun r _ _ => ∀ stats, r = .ok stats → stats.skipped = 0)
      hall.size fun u hu => ?_
    have hblocks : Ends (processBlocks d chip policy new (Plan.ofErasers chip old new es).blocks 0)
      ⟨u, old, {}⟩ _ := processBlocks_changing hall
    refine hblocks.mono ?_
    rintro r ex ⟨hskip, -⟩ stats hstats
    cases r with
    | error e => cases hstats
    | ok _ => cases hstats; exact hskip
  exact hrun stats h

/-- **A plan equals its definition.** For images of the size of the chip, whatever the chip, the
extent and the filter are: with the selected erasers the plan is made, the blocks of each block
size are the planned blocks of its level, some byte changes in every block, and executing the plan
from the old contents skips no block, on any device and also if the execution fails. -/
theorem prepare_declarative (hold : old.size = chip.totalSize) (hnew : new.size = chip.totalSize)
    (hes : (selectErasers chip extent filter s).1 = .ok es) :
    Nested es ∧ ∃ plan, (Plan.prepare chip old new extent filter s).1 = .ok plan ∧
      (∀ u ∈ plan.units, ∃ e ∈ es, u.blockSize = e.blockSize) ∧
      (∀ l e, es[l]? = some e → ∀ b : Block,
        (∃ u ∈ plan.units, u.blockSize = e.blockSize ∧ b ∈ u.blocks) ↔
          ∃ j, (ofErasers chip es old new).Planned l j ∧
            b = ⟨j * e.blockSize, e.blockSize, e.function⟩) ∧
      (∀ b ∈ plan.blocks, ∃ a ∈ b.span, old.byte a ≠ new.byte a) ∧
      ∀ (τ : Type) (d : Device τ) (policy : Policy) (t : Session τ),
        (processBlocks d chip policy new plan.blocks 0 ⟨t, old, {}⟩).2.stats.skipped = 0 ∧
        ∀ stats, (executePlan d chip plan old policy t).1.1 = .ok stats → stats.skipped = 0 := by
  have hsel : Ends (selectErasers chip extent filter) s fun r s' => True ∧ _ :=
    selectErasers_ends (vouches_trivial filter chip) trivial
  obtain ⟨-, hnested, -⟩ := hsel.2 es hes
  have hprepare : Ends (Plan.prepare chip old new extent filter) s _ :=
    prepare_ends hold hnew (R := fun r _ => r = .ok es) hes
  obtain ⟨_, rfl, hplan⟩ := hprepare
  refine ⟨hnested, Plan.ofErasers chip old new es, hplan, fun u hu => ?_, fun l e he b => ?_,
    fun b hb => ?_, fun τ d policy t => ⟨?_, fun stats => ?_⟩⟩
  · obtain ⟨l, m, hm, hu⟩ := mem_units_ofErasers_iff.1 hu
    obtain ⟨_, _, rfl, -, -⟩ := ChangeMap.mem_mapUnits hu
    exact ⟨m.eraser, List.mem_of_getElem? (eraser_settle hm), rfl⟩
  · exact mem_units_ofErasers hnested hold hnew he
  · exact differs_of_mem_blocks hnested hold hnew hb
  · have hblocks : Ends (processBlocks d chip policy new (Plan.ofErasers chip old new es).blocks 0)
      ⟨t, old, {}⟩ _ := processBlocks_changing (allChange_ofErasers hnested hold hnew)
    exact hblocks.1
  · exact executePlan_skipped d policy t hnested hold hnew

/-- On the sample chip, erasing the sample contents takes five blocks of three sizes. -/
theorem prepare_declarative_sample : ∃ plan, (Plan.prepare Chip.sample Image.sample
      (Image.blank 22 255) 22 EraserFilter.all (⟨(), #[], #[]⟩ : Session Unit)).1 = .ok plan ∧
    ∀ b ∈ plan.blocks, ∃ a ∈ b.span, Image.sample.byte a ≠ (Image.blank 22 255).byte a := by
  obtain ⟨-, plan, hplan, -, -, hblocks, -⟩ := @prepare_declarative Unit Chip.sample Image.sample
    (Image.blank 22 255) 22 EraserFilter.all ⟨(), #[], #[]⟩
    [⟨1, 0, 2, by decide⟩, ⟨2, 0, 4, by decide⟩, ⟨0, 0, 8, by decide⟩] rfl rfl rfl
  exact ⟨plan, hplan, hblocks⟩

end Reflash
