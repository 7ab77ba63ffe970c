import Reflash.Proofs.Layout
import Reflash.Proofs.Plan.Selection
import Reflash.Proofs.Plan.Uniform

/-!
# What a plan covers

A byte that changes is in exactly one unit if it is in a whole block of the finest
eraser, and in none if it is behind the last of these (`Eraser.wholeEnd`). An eraser
that covers the extent has no change behind that, nor has one whose blocks divide the
chip. If no region reaches the extent, the eraser that takes their place may have.

* `countP_units`: how many units have a byte that changes.
* `units_eq_nil_iff`: the images for which a plan is empty.
* `make_coverage`: both, for a chip without defects and a filter that allows everything.
-/

namespace Reflash

open ChangeMap Comparison

variable {σ : Type} {chip : Chip} {old new : Image} {mode : ExtentMode} {e : Eraser}
  {es : List Eraser} {extent a : ℕ} {s : Session σ}

/-- Where the last whole block of the eraser ends on a chip of `size` bytes. -/
def Eraser.wholeEnd (e : Eraser) (size : ℕ) : ℕ := size / e.blockSize * e.blockSize

theorem Eraser.le_wholeEnd {n size : ℕ} (hdvd : e.blockSize ∣ n) (hle : n ≤ size) :
    n ≤ e.wholeEnd size := by
  obtain ⟨k, rfl⟩ := hdvd
  rw [Eraser.wholeEnd, Nat.mul_comm]
  refine Nat.mul_le_mul_right _ ((Nat.le_div_iff_mul_le e.blockSize_pos).2 ?_)
  rwa [Nat.mul_comm]

/-- What changes is within the extent. -/
theorem lt_requiredExtent (hsize : old.size = new.size) (mode : ExtentMode)
    (ha : old.byte a ≠ new.byte a) : a < requiredExtent old new mode := by
  have hlt : a < old.size := Image.lt_size_of_ne hsize ha
  cases mode with
  | wholeChip => exact hlt
  | diff =>
    have hshared : a ∈ Image.shared old new := ⟨Nat.zero_le _, by
      simp only [Image.shared]
      omega⟩
    obtain ⟨j, hj, hle⟩ := Span.le_findLast? hshared (Image.differsAt_iff.2 ha)
    unfold requiredExtent Image.lastDiffering?
    dsimp only
    rw [hj, Option.map_some, Option.getD_some]
    omega

/-! ## With given erasers -/

/-- No unit goes behind the last whole block of the finest eraser. -/
theorem units_stop_le (hes : Nested (e :: es)) (hold : old.size = chip.totalSize)
    (hnew : new.size = chip.totalSize) {u : ProcessingUnit}
    (hu : u ∈ (Plan.ofErasers chip old new (e :: es)).units) :
    u.stop ≤ e.wholeEnd chip.totalSize := by
  refine e.le_wholeEnd ?_ (units_inside hes hold hnew hu)
  obtain ⟨l, m, hm, hu⟩ := mem_units_ofErasers_iff.1 hu
  obtain ⟨first, n, rfl, -, -⟩ := mem_mapUnits hu
  have hdvd : e.blockSize ∣ m.blockSize := by
    rcases List.mem_cons.1 (List.mem_of_getElem? (eraser_settle hm)) with heq | htail
    · exact Dvd.intro_left 1 (by rw [Nat.one_mul, ChangeMap.blockSize, heq])
    · exact ((List.pairwise_cons.1 hes).1 _ htail).2
  rw [unit_stop]
  exact hdvd.mul_left _

/-- **A byte that changes** is in one unit, or in none if it is behind the last whole block. -/
theorem countP_units (hes : Nested (e :: es)) (hold : old.size = chip.totalSize)
    (hnew : new.size = chip.totalSize) (ha : old.byte a ≠ new.byte a) :
    (Plan.ofErasers chip old new (e :: es)).units.countP (fun u => decide (a ∈ u.span)) =
      if a < e.wholeEnd chip.totalSize then 1 else 0 := by
  split
  · rename_i hlt
    have hdiv : a / e.blockSize < chip.totalSize / e.blockSize :=
      (Nat.div_lt_iff_lt_mul e.blockSize_pos).2 hlt
    obtain ⟨b, hb, hab⟩ := exists_mem_blocks hes hold hnew rfl hdiv ha
    obtain ⟨u, hu, hbu⟩ := mem_blocks_iff.1 hb
    refine Nat.le_antisymm (countP_le_one ?_) (List.countP_pos_iff.2 ⟨u, hu, ?_⟩)
    · refine (units_disjoint hes hold hnew).imp fun {u v} hdis hau hav => ?_
      exact hdis a (of_decide_eq_true hau) (of_decide_eq_true hav)
    · exact decide_eq_true (mem_unit_span.2 ⟨b, hbu, hab⟩)
  · rename_i hge
    refine List.countP_eq_zero.2 fun u hu hau => ?_
    have hstop := units_stop_le hes hold hnew hu
    have hlt := (of_decide_eq_true hau).2
    simp only [ProcessingUnit.span] at hlt
    unfold ProcessingUnit.stop at hstop
    omega

/-- **A plan is empty** if nothing changes in the whole blocks of the finest eraser. -/
theorem units_eq_nil_iff (hes : Nested (e :: es)) (hold : old.size = chip.totalSize)
    (hnew : new.size = chip.totalSize) :
    (Plan.ofErasers chip old new (e :: es)).units = [] ↔
      ∀ a < e.wholeEnd chip.totalSize, old.byte a = new.byte a := by
  constructor
  · intro hnil a ha
    by_contra hne
    have hcount := countP_units hes hold hnew hne
    rw [hnil, if_pos ha] at hcount
    cases hcount
  · intro hall
    by_contra hne
    obtain ⟨b, hb⟩ := List.exists_mem_of_ne_nil _
      ((wellFormed_ofErasers hes hold hnew).blocks_ne_nil hne)
    -- some byte changes in each block, and no block goes behind the last whole one
    obtain ⟨a, hab, ha⟩ := differs_of_mem_blocks hes hold hnew hb
    obtain ⟨u, hu, hbu⟩ := mem_blocks_iff.1 hb
    have hlt := (mem_unit_span.2 ⟨b, hbu, hab⟩).2
    exact ha (hall a (hlt.trans_le (units_stop_le hes hold hnew hu)))

/-! ## With the selected erasers -/

/-- An eraser that covers the extent has whole blocks up to there. -/
theorem Chip.Covers.le_wholeEnd (hs : chip.Sound) (h : chip.Covers extent e) :
    extent ≤ e.wholeEnd chip.totalSize := by
  obtain ⟨f, r, hget, hr, hsize, hle⟩ := h
  refine hle.trans (e.le_wholeEnd ?_ ?_)
  · exact Dvd.intro r.count (hsize ▸ rfl)
  · have hregion := EraseFunction.total_le (List.mem_of_getElem? hr)
    have htotal := hs.total f (List.mem_of_getElem? hget)
    omega

/-- A chip with one erase function, whose second region has larger blocks than the first one. -/
def Chip.tailed : Chip where
  vendor := "Sample"
  name := "T8"
  totalSize := 8
  pageSize := 4
  granularity := .byte
  eraseFunctions := [.ofRegions [⟨3, 1⟩, ⟨5, 1⟩]]

/-- **What a plan covers**, for every chip without defects, pair of images and extent mode. A byte
that changes is in exactly one unit, or in none if it is behind the last whole block of the finest
eraser. If some region reaches the extent, or these blocks divide the chip, every byte that changes
is in exactly one unit, and the plan is empty exactly if the images are equal. -/
theorem make_coverage {plan : Plan} (hvalid : chip.validate = .ok ())
    (h : (Plan.make chip old new mode EraserFilter.all s).1 = .ok plan) :
    ∃ e es, (selectErasers chip (requiredExtent old new mode) EraserFilter.all s).1 =
        .ok (e :: es) ∧
      (∀ a, old.byte a ≠ new.byte a → plan.units.countP (fun u => decide (a ∈ u.span)) =
        if a < e.wholeEnd chip.totalSize then 1 else 0) ∧
      (plan.units = [] ↔ ∀ a < e.wholeEnd chip.totalSize, old.byte a = new.byte a) ∧
      (chip.Reaches (requiredExtent old new mode) ∨ e.blockSize ∣ chip.totalSize →
        (∀ a, old.byte a ≠ new.byte a →
          plan.units.countP (fun u => decide (a ∈ u.span)) = 1) ∧
        (plan.units = [] ↔ old = new)) := by
  have hsound := Chip.validate_iff.1 hvalid
  obtain ⟨hold, hnew, es', hsel, hne, hes, rfl⟩ := prepare_eq h
  have hsize : old.size = new.size := hold.trans hnew.symm
  obtain ⟨e, es, rfl⟩ := List.exists_cons_of_ne_nil hne
  have hcount := fun a => countP_units (a := a) hes hold hnew
  refine ⟨e, es, hsel, hcount, units_eq_nil_iff hes hold hnew, fun hreach => ?_⟩
  -- every change is in a whole block of the finest eraser
  have hwhole : ∀ a, old.byte a ≠ new.byte a → a < e.wholeEnd chip.totalSize := by
    intro a ha
    rcases hreach with hreach | hdvd
    · have hcovers : Ends (selectErasers chip (requiredExtent old new mode) EraserFilter.all) s _ :=
        selectErasers_covers hsound hreach
      have hcover := hcovers (e :: es) hsel e List.mem_cons_self
      exact (lt_requiredExtent hsize mode ha).trans_le (hcover.le_wholeEnd hsound)
    · exact (hold ▸ Image.lt_size_of_ne hsize ha).trans_le (e.le_wholeEnd hdvd (Nat.le_refl _))
  refine ⟨fun a ha => ?_, fun hnil => Image.ext_byte hsize fun a _ => ?_, ?_⟩
  · rw [hcount a ha, if_pos (hwhole a ha)]
  · by_contra ha
    exact ha ((units_eq_nil_iff hes hold hnew).1 hnil a (hwhole a ha))
  · rintro rfl
    exact units_self hes hnew

/-- A change in the first region is planned. -/
theorem make_coverage_first : ∃ plan,
    Chip.tailed.validate = .ok () ∧
    (Plan.make Chip.tailed (Image.blank 8 0) #[0, 1, 0, 0, 0, 0, 0, 0] .diff EraserFilter.all
      (⟨(), #[], #[]⟩ : Session Unit)).1 = .ok plan ∧
    plan.units.countP (fun u => decide (1 ∈ u.span)) = 1 := by
  obtain ⟨e, es, -, -, -, hall⟩ := @make_coverage Unit Chip.tailed (Image.blank 8 0)
    #[0, 1, 0, 0, 0, 0, 0, 0] .diff ⟨(), #[], #[]⟩
    ⟨Image.blank 8 0, #[0, 1, 0, 0, 0, 0, 0, 0], [⟨3, 0, 1, 0, 0⟩]⟩ rfl rfl
  refine ⟨_, rfl, rfl, (hall (.inl ?_)).1 1 (by decide)⟩
  exact ⟨_, List.mem_singleton_self _, rfl, ⟨3, 1⟩, List.mem_cons_self, by decide, by decide⟩

/-- **A change behind the last whole block is left out** if no region reaches the extent. On its own
it leaves the plan empty, although the images are not equal. -/
theorem make_tail :
    Chip.tailed.validate = .ok () ∧
    (∃ plan, (Plan.make Chip.tailed (Image.blank 8 0) #[0, 0, 0, 0, 0, 0, 0, 1] .diff
        EraserFilter.all (⟨(), #[], #[]⟩ : Session Unit)).1 = .ok plan ∧
      Image.byte (Image.blank 8 0) 7 ≠ Image.byte #[0, 0, 0, 0, 0, 0, 0, 1] 7 ∧
      plan.units = []) ∧
    ∃ plan, (Plan.make Chip.tailed (Image.blank 8 0) #[1, 0, 0, 0, 0, 0, 0, 1] .diff
        EraserFilter.all (⟨(), #[], #[]⟩ : Session Unit)).1 = .ok plan ∧
      Image.byte (Image.blank 8 0) 7 ≠ Image.byte #[1, 0, 0, 0, 0, 0, 0, 1] 7 ∧
      plan.units = [⟨5, 0, 1, 0, 1⟩] ∧
      plan.units.countP (fun u => decide (7 ∈ u.span)) = 0 :=
  ⟨rfl, ⟨_, rfl, by decide, rfl⟩, ⟨_, rfl, by decide, rfl, rfl⟩⟩

end Reflash
