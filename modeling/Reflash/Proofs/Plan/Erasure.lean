import Reflash.Proofs.Plan.Blocks

/-!
# Plans that erase everything

If every byte of the chip has to be erased, every block of every level is folded: on
the finest level because of its bytes, on a coarser one because all of the finer
blocks in it are, which is more than 70 percent of them. The coarsest blocks then
clear all others, and the plan is one unit, the whole chip in the coarsest blocks.

* `folded_of_dirty`: every block is folded.
* `planned_iff_of_dirty`: the blocks of the coarsest level are planned, and no others.
* `units_of_dirty`, `blocks_of_dirty`: the plan.
-/

namespace Reflash

namespace Comparison

variable {c : Comparison} {l j : ℕ}

/-- Every byte of the chip changes and is not erased before. -/
def Dirty (c : Comparison) : Prop :=
  ∀ a < c.chipSize, c.old.byte a ≠ c.new.byte a ∧ c.old.byte a ≠ c.erased

/-- **Every whole block is folded.** -/
theorem folded_of_dirty (hc : c.Regular) (hdirty : c.Dirty) (hl : l < c.sizes.length)
    (hj : j < c.count l) : c.folded l j = true := by
  induction l generalizing j with
  | zero =>
    have hpos := hc.pos 0 hl
    -- the first byte of the block is on the chip
    have hin : (j + 1) * c.size 0 ≤ c.chipSize := (Nat.le_div_iff_mul_le hpos).1 hj
    rw [Nat.succ_mul] at hin
    obtain ⟨hchanges, holds⟩ := hdirty (j * c.size 0) (by omega)
    rw [folded, dirty, Span.any_iff]
    refine ⟨j * c.size 0, ⟨Nat.le_refl _, by simp only [span]; omega⟩, ?_⟩
    rw [Bool.and_eq_true, Image.differsAt_iff, bne_iff_ne]
    exact ⟨hchanges, holds⟩
  | succ l ih =>
    have hpos := hc.pos l (by omega)
    obtain ⟨k, hk⟩ := hc.dvd l (l + 1) (Nat.lt_succ_self l) hl
    have hkpos : 0 < k := Nat.pos_of_ne_zero fun h0 => by
      have := hc.pos (l + 1) hl
      rw [hk, h0, Nat.mul_zero] at this
      exact Nat.lt_irrefl 0 this
    have hdiv : c.size (l + 1) / c.size l = k := by rw [hk, Nat.mul_div_cancel_left _ hpos]
    have hcount : (j + 1) * k ≤ c.count l := mul_le_count hpos hk hj
    rw [Nat.succ_mul] at hcount
    -- all of the finer blocks in it are folded
    have hall : (List.range k).countP (fun i => c.folded l (j * k + i)) = k := by
      refine (List.countP_eq_length.2 fun i hi => ?_).trans List.length_range
      rw [List.mem_range] at hi
      exact ih (by omega) (by omega)
    rw [folded, hdiv, hall, Bool.and_eq_true, decide_eq_true_eq, decide_eq_true_eq]
    exact ⟨hj, by omega⟩

/-- **Only the blocks of the coarsest level are planned**, and all of these. -/
theorem planned_iff_of_dirty (hc : c.Regular) (hdirty : c.Dirty) (hl : l < c.sizes.length)
    (hwhole : c.size (c.sizes.length - 1) ∣ c.chipSize) :
    c.Planned l j ↔ l + 1 = c.sizes.length ∧ j < c.count l := by
  constructor
  · rintro ⟨⟨hj, -⟩, huncovered⟩
    refine ⟨?_, hj⟩
    by_contra hne
    have hcoarser : l < c.sizes.length - 1 := by omega
    have hlast : c.sizes.length - 1 < c.sizes.length := by omega
    -- the block of the coarsest level that it is in is folded
    have hdvd : c.size l ∣ c.size (c.sizes.length - 1) := hc.dvd l _ hcoarser hlast
    have hpos := hc.pos l hl
    have hpos' := hc.pos _ hlast
    have hin : (j + 1) * c.size l ≤ c.chipSize := (Nat.le_div_iff_mul_le hpos).1 hj
    have hstart : j * c.size l < c.chipSize := by
      rw [Nat.succ_mul] at hin
      omega
    refine huncovered (c.sizes.length - 1) (j * c.size l / c.size (c.sizes.length - 1)) hcoarser
      hlast ?_ ((within_iff hpos hpos' hdvd).2 rfl)
    exact folded_of_dirty hc hdirty hlast (Nat.div_lt_div_of_lt_of_dvd hwhole hstart)
  · rintro ⟨hlast, hj⟩
    have hfolded := folded_of_dirty hc hdirty hl hj
    refine ⟨⟨hj, ?_⟩, fun l' j' hlt hl' => by omega⟩
    split
    · rename_i h0
      subst h0
      obtain ⟨a, ha, hd⟩ := Span.any_iff.1 hfolded
      rw [Bool.and_eq_true] at hd
      exact Span.any_iff.2 ⟨a, ha, hd.1⟩
    · exact hfolded

end Comparison

open ChangeMap Comparison

variable {chip : Chip} {old new : Image} {fine : List Eraser} {e : Eraser}

/-- A mark is left exactly if it is one of the coarsest eraser. -/
theorem isSet_iff_of_dirty (hes : Nested (fine ++ [e])) (hold : old.size = chip.totalSize)
    (hnew : new.size = chip.totalSize) (hwhole : e.blockSize ∣ chip.totalSize)
    (hdirty : (ofErasers chip (fine ++ [e]) old new).Dirty) {l : ℕ} {m : ChangeMap}
    (hm : (settle (promoted (ofErasers chip (fine ++ [e]) old new) (fine ++ [e])))[l]? = some m)
    {mark : Mark} (hmark : mark ∈ m.marks) : mark.isSet = true ↔ l = fine.length := by
  have hlen : (ofErasers chip (fine ++ [e]) old new).sizes.length = fine.length + 1 := by
    rw [ofErasers, List.length_map, List.length_append, List.length_singleton]
  have hsize : (ofErasers chip (fine ++ [e]) old new).size fine.length = e.blockSize :=
    size_ofErasers List.getElem?_concat_length
  have hl : l < (ofErasers chip (fine ++ [e]) old new).sizes.length := by
    have := (List.getElem?_eq_some_iff.1 (eraser_settle hm)).1
    rwa [ofErasers, List.length_map]
  obtain ⟨j, hj⟩ := Array.mem_iff_getElem?.1 hmark
  obtain ⟨hblock, hset⟩ := isSet_settle hes hold hnew (j := j) hm
  have hlt : j < (ofErasers chip (fine ++ [e]) old new).count l := by
    have := (Array.getElem?_eq_some_iff.1 hj).1
    rwa [settled_size hes hold hnew m (List.mem_of_getElem? hm), hblock] at this
  have hregular := regular_of_nested chip old new hes
  rw [hj, Option.any_some, planned_iff_of_dirty hregular hdirty hl, hlen,
    Nat.add_right_cancel_iff] at hset
  · exact hset.trans (and_iff_left hlt)
  · rw [hlen, Nat.add_sub_cancel, hsize]
    exact hwhole

/-- **If every byte has to be erased**, the plan is the whole chip in blocks of the coarsest
eraser. -/
theorem units_of_dirty (hes : Nested (fine ++ [e])) (hold : old.size = chip.totalSize)
    (hnew : new.size = chip.totalSize) (hpos : 0 < chip.totalSize)
    (hwhole : e.blockSize ∣ chip.totalSize)
    (hdirty : (ofErasers chip (fine ++ [e]) old new).Dirty) :
    (Plan.ofErasers chip old new (fine ++ [e])).units =
      [⟨e.blockSize, 0, chip.totalSize / e.blockSize, e.function, e.region⟩] := by
  have hmarks := @isSet_iff_of_dirty chip old new fine e hes hold hnew hwhole hdirty
  have hcount := settled_size hes hold hnew
  -- the settled maps are those of the finer erasers, and that of the coarsest one
  have hmap := map_eraser_settle (promoted (ofErasers chip (fine ++ [e]) old new) (fine ++ [e]))
  rw [map_eraser_promoted] at hmap
  rw [units_ofErasers]
  generalize settle (promoted (ofErasers chip (fine ++ [e]) old new) (fine ++ [e])) = maps at *
  obtain ⟨finer, rest, rfl, rfl, hrest⟩ := List.map_eq_append_iff.1 hmap
  obtain ⟨m, rfl, rfl⟩ := List.map_eq_singleton_iff.1 hrest
  rw [List.length_map] at hmarks
  have hfiner : finer.flatMap mapUnits = [] := by
    refine List.flatMap_eq_nil_iff.2 fun m' hm' => mapUnits_unmarked fun mark hmark => ?_
    obtain ⟨l, hl⟩ := List.mem_iff_getElem?.1 hm'
    have hlt := (List.getElem?_eq_some_iff.1 hl).1
    have hget : (finer ++ [m])[l]? = some m' := by rwa [List.getElem?_append_left hlt]
    exact Bool.eq_false_iff.2 fun hset => hlt.ne ((hmarks hget hmark).1 hset)
  have hsize : m.marks.size = chip.totalSize / m.blockSize :=
    hcount m (List.mem_append_right _ (List.mem_singleton_self m))
  have hne : 0 < m.marks.size := by
    rw [hsize]
    exact Nat.div_pos (Nat.le_of_dvd hpos hwhole) m.blockSize_pos
  have hcoarsest : m.mapUnits = [m.unit 0 m.marks.size] :=
    mapUnits_marked hne fun mark hmark => (hmarks List.getElem?_concat_length hmark).2 rfl
  rw [List.flatMap_append, hfiner, List.nil_append, List.flatMap_singleton, hcoarsest, hsize]
  simp only [unit, Nat.zero_mul, blockSize]

/-- Its blocks lie side by side from the start of the chip to its end. -/
theorem blocks_of_dirty (hes : Nested (fine ++ [e])) (hold : old.size = chip.totalSize)
    (hnew : new.size = chip.totalSize) (hpos : 0 < chip.totalSize)
    (hwhole : e.blockSize ∣ chip.totalSize)
    (hdirty : (ofErasers chip (fine ++ [e]) old new).Dirty) :
    (Plan.ofErasers chip old new (fine ++ [e])).blocks =
      (List.range (chip.totalSize / e.blockSize)).map fun j =>
        ⟨j * e.blockSize, e.blockSize, e.function⟩ := by
  rw [Plan.blocks, units_of_dirty hes hold hnew hpos hwhole hdirty, List.flatMap_singleton,
    ProcessingUnit.blocks]
  simp only [Nat.zero_add]

end Reflash
