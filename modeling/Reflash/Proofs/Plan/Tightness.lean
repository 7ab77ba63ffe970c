import Reflash.Proofs.Chip
import Reflash.Proofs.Plan.Marks

/-!
# Chains of block sizes that keep marks truthful

A block is folded if more than 70 percent of the finer blocks in it are. Of three blocks or fewer
this takes all, of four or more it may leave one out. A block that is left out has no mark on its
level, from the second level on, so that the coarser block does not learn what it needs.

* `truthful_of_tight`: if from the second level on no block has more than three blocks of the level
  below in it, all marks are truthful.
* `exists_untruthful`: otherwise there are images for which one is not.
* `compare_truthful_iff`: what all marks say, and which chains keep them truthful.
-/

namespace Reflash

/-- From the second level on, a block that fits on `n` bytes is made up of at most three blocks of
the level below. -/
def Tight (n : ℕ) (sizes : List ℕ) : Prop :=
  ∀ l fine coarse, sizes[l + 1]? = some fine → sizes[l + 2]? = some coarse → coarse ≤ n →
    coarse ≤ 3 * fine

namespace Comparison

variable {c : Comparison} {l j a : ℕ}

theorem getElem?_sizes (hl : l < c.sizes.length) : c.sizes[l]? = some (c.size l) := by
  rw [size, List.getD_eq_getElem?_getD, List.getElem?_eq_getElem hl, Option.getD_some]

theorem size_le_of_lt_count (hj : j < c.count l) : c.size l ≤ c.chipSize := by
  by_contra hlt
  rw [count, Nat.div_eq_of_lt (Nat.lt_of_not_le hlt)] at hj
  exact Nat.not_lt_zero j hj

/-! ## Tight chains -/

/-- **In a tight chain a folded block is made up of folded ones**, from the second level on. -/
theorem folded_children (hc : c.Regular) (ht : Tight c.chipSize c.sizes)
    (hl : l + 2 < c.sizes.length) (h : c.folded (l + 2) j = true) :
    ∀ i < c.size (l + 2) / c.size (l + 1),
      c.folded (l + 1) (j * (c.size (l + 2) / c.size (l + 1)) + i) = true := by
  obtain ⟨hj, hcount⟩ := folded_succ_iff.1 h
  have hthree : c.size (l + 2) / c.size (l + 1) ≤ 3 := by
    rw [Nat.div_le_iff_le_mul_add_pred (hc.pos (l + 1) (by omega))]
    have := ht l _ _ (getElem?_sizes (by omega)) (getElem?_sizes hl) (size_le_of_lt_count hj)
    omega
  generalize c.size (l + 2) / c.size (l + 1) = m at *
  -- more than 70 percent of three or fewer are all
  have hall : ∀ i ∈ List.range m, c.folded (l + 1) (j * m + i) = true := by
    rw [← List.countP_eq_length]
    have hle := List.countP_le_length (p := fun i => c.folded (l + 1) (j * m + i))
      (l := List.range m)
    rw [List.length_range] at hle ⊢
    omega
  exact fun i hi => hall i (List.mem_range.2 hi)

/-- Everything in a folded block of a tight chain lies in folded blocks. -/
theorem lifted_of_folded (hc : c.Regular) (ht : Tight c.chipSize c.sizes)
    (hl : l < c.sizes.length) (h : 0 < l → c.folded l j = true) (ha : a ∈ c.span l j) :
    c.Lifted l a := by
  induction l generalizing j with
  | zero => exact lifted_zero
  | succ l ih =>
    have hpos := hc.pos l (by omega)
    have hpos' := hc.pos (l + 1) hl
    have hdvd := hc.dvd l (l + 1) (Nat.lt_succ_self l) hl
    have hfold := h (Nat.succ_pos l)
    refine lifted_succ.2 ⟨?_, (mem_span_iff hpos').1 ha ▸ hfold⟩
    obtain ⟨i, hi, hmem⟩ := (mem_span_succ_iff hpos hpos' hdvd).1 ha
    refine ih (by omega) (fun h0 => ?_) hmem
    cases l with
    | zero => exact absurd h0 (Nat.lt_irrefl 0)
    | succ l => exact folded_children hc ht hl hfold i hi

/-! ## A chain that is not tight -/

theorem countP_range_lt (a b m : ℕ) :
    ((List.range m).countP fun i => decide (a + i < b)) = min m (b - a) := by
  induction m with
  | zero => simp
  | succ m ih =>
    rw [List.range_succ, List.countP_append, ih, List.countP_singleton]
    split <;> simp_all <;> omega

/-- If the folded blocks of a level are those with a number below `q`, the ones in block `j` of the
next level can be counted. -/
theorem folded_succ_iff_of_lt {q : ℕ} (h : ∀ i, c.folded l i = true ↔ i < q) :
    c.folded (l + 1) j = true ↔ j < c.count (l + 1) ∧
      70 * (c.size (l + 1) / c.size l) / 100 <
        min (c.size (l + 1) / c.size l) (q - j * (c.size (l + 1) / c.size l)) := by
  rw [folded_succ_iff, ← countP_range_lt]
  refine and_congr_right fun _ => Iff.of_eq (congrArg _ (List.countP_congr fun i _ => ?_))
  rw [h, decide_eq_true_eq]

/-- If the bytes that have to be erased are those below `cut`, the folded blocks of a level that
divides it are those below `cut`. -/
theorem folded_iff_lt {cut : ℕ} (hc : c.Regular) (hcut : ∀ a, c.ErasesAt a ↔ a < cut)
    (hle : cut ≤ c.chipSize) (hl : l < c.sizes.length) (hdvd : c.size l ∣ cut) :
    c.folded l j = true ↔ j < cut / c.size l := by
  have hpos := hc.pos l hl
  induction l generalizing j with
  | zero =>
    rw [folded, dirty_iff, Nat.lt_div_iff_mul_lt' hdvd]
    simp only [hcut, span, Span.mem_def]
    constructor
    · rintro ⟨a, ⟨ha, -⟩, hlt⟩
      rw [Nat.mul_comm] at ha
      exact ha.trans_lt hlt
    · intro hlt
      rw [Nat.mul_comm] at hlt
      exact ⟨j * c.size 0, ⟨le_rfl, by omega⟩, hlt⟩
  | succ l ih =>
    have hstep := hc.dvd l (l + 1) (Nat.lt_succ_self l) hl
    have hfiner := hc.pos l (by omega)
    have hm : 0 < c.size (l + 1) / c.size l := Nat.div_pos (Nat.le_of_dvd hpos hstep) hfiner
    have hfew : cut / c.size (l + 1) ≤ c.count (l + 1) := Nat.div_le_div_right hle
    have hquot : cut / c.size l = cut / c.size (l + 1) * (c.size (l + 1) / c.size l) := by
      obtain ⟨q, rfl⟩ := hdvd
      rw [Nat.mul_div_cancel_left _ hpos, Nat.mul_comm, Nat.mul_div_assoc q hstep]
    rw [folded_succ_iff_of_lt fun i => ih (by omega) (hstep.trans hdvd) hfiner, hquot,
      ← Nat.sub_mul]
    generalize c.size (l + 1) / c.size l = m at *
    generalize cut / c.size (l + 1) = q at *
    -- either all finer blocks in the block are folded, or none is
    by_cases hj : j < q
    · have : m ≤ (q - j) * m := Nat.le_mul_of_pos_left m (by omega)
      omega
    · rw [Nat.sub_eq_zero_of_le (Nat.le_of_not_lt hj), Nat.zero_mul]
      omega

/-- Of the blocks of a level, at most the first is folded. Then none of the next level is. -/
theorem folded_succ_eq_false (hc : c.Regular) (hl : l + 1 < c.sizes.length)
    (h : ∀ i, c.folded l i = true → i = 0) : c.folded (l + 1) j = false := by
  have hlt := hc.lt l (l + 1) (Nat.lt_succ_self l) hl
  have hdvd := hc.dvd l (l + 1) (Nat.lt_succ_self l) hl
  have htwo : 1 < c.size (l + 1) / c.size l :=
    (Nat.lt_div_iff_mul_lt' hdvd 1).2 ((Nat.mul_one _).trans_lt hlt)
  rw [← Bool.not_eq_true, folded_succ_iff]
  generalize c.size (l + 1) / c.size l = m at *
  rintro ⟨-, hcount⟩
  have hone : ((List.range m).countP fun i => c.folded l (j * m + i)) ≤ 1 := by
    refine countP_le_one (List.pairwise_lt_range.imp fun {i k} hik hi hk => ?_)
    have := h _ hi
    have := h _ hk
    omega
  omega

/-- **The block that is folded without its last finer one.** If the bytes that have to be erased are
those before the last block of level `l` in the first of the next, which has four or more, then this
one is folded, and no other of its level or a coarser one. -/
theorem folded_without_last {cut : ℕ} (hc : c.Regular) (hcut : ∀ a, c.ErasesAt a ↔ a < cut)
    (hl : l + 1 < c.sizes.length) (hfit : c.size (l + 1) ≤ c.chipSize)
    (hfour : 3 * c.size l < c.size (l + 1)) (hlast : cut + c.size l = c.size (l + 1)) :
    c.folded (l + 1) 0 = true ∧
      ∀ k, l + 1 < k → k < c.sizes.length → ∀ j, c.folded k j = false := by
  have hpos := hc.pos l (by omega)
  have hdvd := hc.dvd l (l + 1) (Nat.lt_succ_self l) hl
  have hfour' : 3 < c.size (l + 1) / c.size l :=
    (Nat.lt_div_iff_mul_lt' hdvd 3).2 ((Nat.mul_comm ..).trans_lt hfour)
  have hcut' : cut = c.size l * (c.size (l + 1) / c.size l - 1) := by
    rw [Nat.mul_sub, Nat.mul_div_cancel' hdvd, Nat.mul_one]
    omega
  have hcount : 0 < c.count (l + 1) := Nat.div_pos hfit (hc.pos _ hl)
  have hfiner : ∀ i, c.folded l i = true ↔ i < c.size (l + 1) / c.size l - 1 := fun i => by
    rw [folded_iff_lt hc hcut (by omega) (by omega) ⟨_, hcut'⟩]
    rw [hcut', Nat.mul_div_cancel_left _ hpos]
  have hfold := fun j => folded_succ_iff_of_lt (j := j) hfiner
  generalize c.size (l + 1) / c.size l = m at *
  refine ⟨(hfold 0).2 ⟨hcount, by omega⟩, fun k hk => ?_⟩
  have honly : ∀ i, c.folded (l + 1) i = true → i = 0 := fun i hi => by
    obtain ⟨-, hmin⟩ := (hfold i).1 hi
    by_contra hne
    have := Nat.le_mul_of_pos_left m (Nat.pos_of_ne_zero hne)
    omega
  -- a single folded block is never enough for the next level
  induction k, hk using Nat.le_induction with
  | base => exact fun hlen j => folded_succ_eq_false hc hlen honly
  | succ k hk ih =>
    exact fun hlen j => folded_succ_eq_false hc hlen fun i hi =>
      absurd hi (by rw [ih (by omega) i]; exact Bool.false_ne_true)

end Comparison

open Comparison ChangeMap

variable {chip : Chip} {es : List Eraser} {old new : Image} {l j : ℕ} {mark : Mark}

/-- **In a tight chain marks are truthful.** -/
theorem truthful_of_tight (hes : Nested es) (hold : old.size = chip.totalSize)
    (hnew : new.size = chip.totalSize) (ht : Tight chip.totalSize (es.map Eraser.blockSize))
    (h : Marked (compare chip es old new) l j mark) :
    (ofErasers chip es old new).Truthful ((ofErasers chip es old new).span l j) mark := by
  obtain ⟨herase, hwrite, hfold⟩ := marked_compare hes hold hnew h
  refine ⟨herase, hwrite.trans ⟨?_, ?_⟩⟩
  · rintro ⟨a, ha, hw, -⟩
    exact ⟨a, ha, hw⟩
  · rintro ⟨a, ha, hw⟩
    have hl : l < (ofErasers chip es old new).sizes.length :=
      (h.lt_length hes).trans_eq (List.length_map _).symm
    exact ⟨a, ha, hw, lifted_of_folded (regular_of_nested chip old new hes) ht hl hfold ha⟩

/-- There are images between which the byte at `cut` has to be written, those before it have to be
erased, and nothing else changes. -/
theorem exists_images (n : ℕ) (v : UInt8) {cut : ℕ} (hcut : cut < n) :
    ∃ old new : Image, old.size = n ∧ new.size = n ∧
      (∀ a, (old.byte a ≠ new.byte a ∧ old.byte a ≠ v) ↔ a < cut) ∧
      ∀ a, (old.byte a ≠ new.byte a ∧ new.byte a ≠ v) ↔ a = cut := by
  have hv : v + 1 ≠ v := by grind
  refine ⟨Image.tabulate n fun a => if a < cut then v + 1 else v,
    Image.tabulate n fun a => if a = cut then v + 1 else v, Image.size_tabulate n _,
    Image.size_tabulate n _, fun a => ?_, fun a => ?_⟩
  all_goals
    rw [Image.byte_tabulate, Image.byte_tabulate]
    rcases Nat.lt_trichotomy a cut with ha | rfl | ha
  · simp [ha, ha.ne, ha.trans hcut, hv]
  · simp [hcut, hv.symm]
  · by_cases hn : a < n <;> simp [ha.not_gt, ha.ne', hn]
  · simp [ha, ha.ne, ha.trans hcut, hv]
  · simp [hcut, hv, hv.symm]
  · by_cases hn : a < n <;> simp [ha.not_gt, ha.ne', hn]

/-- **A chain that is not tight has a mark that is not truthful**, for suitable images. -/
theorem exists_untruthful (chip : Chip) (hes : Nested es)
    (ht : ¬Tight chip.totalSize (es.map Eraser.blockSize)) :
    ∃ old new, old.size = chip.totalSize ∧ new.size = chip.totalSize ∧ ∃ l j mark,
      Marked (compare chip es old new) l j mark ∧
      ¬(ofErasers chip es old new).Truthful ((ofErasers chip es old new).span l j) mark := by
  unfold Tight at ht
  push Not at ht
  obtain ⟨l, fine, coarse, hfine, hcoarse, hfit, hfour⟩ := ht
  have hlen : l + 2 < es.length := by
    rw [← List.length_map Eraser.blockSize]
    exact (List.getElem?_eq_some_iff.1 hcoarse).1
  have hpos : 0 < fine := by
    obtain ⟨e, -, rfl⟩ := List.mem_map.1 (List.mem_of_getElem? hfine)
    exact e.blockSize_pos
  -- all but the last block of level `l + 1` has to be erased, and that one only to be written
  obtain ⟨old, new, hold, hnew, herases, hwrites⟩ :=
    exists_images chip.totalSize chip.erasedValue (show coarse - fine < chip.totalSize by omega)
  refine ⟨old, new, hold, hnew, l + 2, 0, ?_⟩
  have hreg := regular_of_nested chip old new hes
  have hsizes : (ofErasers chip es old new).sizes.length = es.length := List.length_map _
  have hsize : (ofErasers chip es old new).size (l + 1) = fine := size_eq hfine
  have hsize' : (ofErasers chip es old new).size (l + 2) = coarse := size_eq hcoarse
  obtain ⟨hfold, habove⟩ := folded_without_last (l := l + 1) hreg herases (by omega)
    (hsize'.trans_le hfit) (by rw [hsize, hsize']; exact hfour) (by rw [hsize, hsize']; omega)
  have hplanned : (ofErasers chip es old new).Planned (l + 2) 0 := by
    refine ⟨⟨lt_count_of_folded hfold, by rwa [if_neg (Nat.succ_ne_zero _)]⟩, ?_⟩
    intro l' j' hlt hl' hfold'
    rw [habove l' hlt hl' j'] at hfold'
    cases hfold'
  obtain ⟨mark, hmark⟩ := exists_marked hes hold hnew hlen hplanned
  refine ⟨mark, hmark, fun htruth => ?_⟩
  obtain ⟨-, hwrite, -⟩ := marked_compare hes hold hnew hmark
  have hin : coarse - fine ∈ (ofErasers chip es old new).span (l + 2) 0 := by
    rw [mem_span_iff (hreg.pos _ (hlen.trans_eq hsizes.symm)), hsize', Nat.div_eq_of_lt]
    omega
  obtain ⟨a, -, ha, hlift⟩ := hwrite.1 (htruth.write.2 ⟨_, hin, (hwrites _).2 rfl⟩)
  obtain rfl := (hwrites a).1 ha
  -- the block with this byte is not folded
  have hnot := hlift (l + 1) (Nat.succ_pos l) (Nat.le_succ _)
  have hdvd : (ofErasers chip es old new).size (l + 1) ∣ coarse - fine := by
    refine Nat.dvd_sub (hsize' ▸ hreg.dvd (l + 1) (l + 2) (Nat.lt_succ_self _) ?_) (by rw [hsize])
    omega
  rw [folded_iff_lt hreg herases ((Nat.sub_le _ _).trans hfit) (by omega) hdvd] at hnot
  exact Nat.lt_irrefl _ hnot

/-- **What the marks of a comparison say, and when it is true.** Images of any sizes are compared
like two of the size of the chip. A mark is truthful about erases, and shows a write exactly if a
byte has to be written that lies in folded blocks up to its level. All marks are truthful, for
all images of the size of the chip, exactly if the chain of block sizes is tight. -/
theorem compare_truthful_iff (chip : Chip) (hes : Nested es) :
    (∀ old new, ∃ x y, StandIn (compared es old new) chip.totalSize old new x y ∧
      compare chip es old new = compare chip es x y) ∧
    (∀ old new, old.size = chip.totalSize → new.size = chip.totalSize → ∀ l j mark,
      Marked (compare chip es old new) l j mark →
        (mark.erase = true ↔
          ∃ a ∈ (ofErasers chip es old new).span l j, (ofErasers chip es old new).ErasesAt a) ∧
        (mark.write = true ↔
          ∃ a ∈ (ofErasers chip es old new).span l j, (ofErasers chip es old new).WritesAt a ∧
            (ofErasers chip es old new).Lifted l a)) ∧
    ((∀ old new, old.size = chip.totalSize → new.size = chip.totalSize → ∀ l j mark,
      Marked (compare chip es old new) l j mark →
        (ofErasers chip es old new).Truthful ((ofErasers chip es old new).span l j) mark) ↔
      Tight chip.totalSize (es.map Eraser.blockSize)) := by
  refine ⟨exists_standIn chip es, fun old new hold hnew l j mark h => ?_, fun h => ?_, ?_⟩
  · obtain ⟨herase, hwrite, -⟩ := marked_compare hes hold hnew h
    exact ⟨herase, hwrite⟩
  · by_contra ht
    obtain ⟨old, new, hold, hnew, l, j, mark, hmark, hnot⟩ := exists_untruthful chip hes ht
    exact hnot (h old new hold hnew l j mark hmark)
  · intro ht old new hold hnew l j mark h
    exact truthful_of_tight hes hold hnew ht h

/-- Erasers of one, two and eight bytes. -/
def Eraser.loose : List Eraser :=
  [⟨0, 0, 1, by decide⟩, ⟨1, 0, 2, by decide⟩, ⟨2, 0, 8, by decide⟩]

/-- The blocks of eight bytes have four of two in them, so that not all marks are truthful. -/
theorem compare_truthful_iff_loose :
    Nested Eraser.loose ∧ ¬∀ old new : Image, old.size = 8 → new.size = 8 → ∀ l j mark,
      Marked (compare Chip.small Eraser.loose old new) l j mark →
        (ofErasers Chip.small Eraser.loose old new).Truthful
          ((ofErasers Chip.small Eraser.loose old new).span l j) mark := by
  have hes : Nested Eraser.loose := by unfold Nested; decide
  refine ⟨hes, fun h => ?_⟩
  have ht := (compare_truthful_iff Chip.small hes).2.2.1 h 0 2 8 rfl rfl le_rfl
  exact absurd ht (by decide)

/-- Six bytes that are not erased, and two that are. -/
def Image.spent : Image := #[0, 0, 0, 0, 0, 0, 255, 255]

/-- An erased image but for one byte. -/
def Image.dotted : Image := #[255, 255, 255, 255, 255, 255, 1, 255]

/-- Between these images, byte 6 has to be written, but the block of all eight bytes is marked for
an erase only. -/
theorem compare_untruthful :
    Marked (compare Chip.small Eraser.loose Image.spent Image.dotted) 2 0 ⟨true, false⟩ ∧
    (ofErasers Chip.small Eraser.loose Image.spent Image.dotted).span 2 0 = ⟨0, 8⟩ ∧
    Image.spent.byte 6 ≠ Image.dotted.byte 6 ∧ Image.dotted.byte 6 ≠ Chip.small.erasedValue ∧
    ¬(ofErasers Chip.small Eraser.loose Image.spent Image.dotted).Truthful ⟨0, 8⟩
      ⟨true, false⟩ := by
  refine ⟨⟨⟨⟨2, 0, 8, by decide⟩, 0, #[⟨true, false⟩]⟩, ?_, rfl, rfl⟩, rfl, by decide, by decide,
    fun h => ?_⟩
  · decide +kernel
  · exact Bool.false_ne_true (h.write.2 ⟨6, by decide, by decide, by decide⟩)

end Reflash
