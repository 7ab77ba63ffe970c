import Reflash.Proofs.Layout
import Reflash.Proofs.Plan.Selection
import Reflash.Proofs.Plan.Uniform

/-!
# Plans and layouts

A plan cuts the whole chip into blocks of the size of one region, from address zero
on. Whether these are blocks of the erase function depends on its layout alone: all
plans fit it exactly if the function has blocks of one size wherever such a block fits
(`EraseFunction.EvenOver`).

* `fits_of_even`: on a chip with such functions, every block of every plan fits.
* `evenOver_of_fits`: if the blocks of one plan fit, in which every byte changes, so do
  those of the function.
-/

namespace Reflash

open Comparison

variable {σ : Type} {chip : Chip} {old new : Image} {extent i j : ℕ} {e : Eraser}
  {es : List Eraser} {filter : EraserFilter σ} {s : Session σ} {f : EraseFunction} {b : Block}

/-- The block is one of the layout of the erase function that it names. -/
def Block.Fits (b : Block) (chip : Chip) : Prop :=
  ∃ f, chip.eraseFunctions[b.function]? = some f ∧ f.usable = true ∧ b.span ∈ f.layout

/-- The first region of a usable function has blocks, and the function covers the chip. -/
theorem Chip.Sound.first (hs : chip.Sound) (hf : f ∈ chip.eraseFunctions)
    (husable : f.usable = true) : ∃ first, f.regions.head? = some first ∧ 0 < first.size ∧
      first.size ≤ first.total ∧ f.total = chip.totalSize := by
  unfold EraseFunction.usable at husable
  rw [Bool.and_eq_true, Option.any_eq_true] at husable
  obtain ⟨-, first, hfirst, hcount⟩ := husable
  rw [decide_eq_true_eq] at hcount
  have hmem : first ∈ f.regions := List.mem_of_head? hfirst
  have hsize : 0 < first.size := by
    have := hs.regions f hf first hmem
    omega
  have hle : first.size ≤ first.total := Nat.le_mul_of_pos_right _ hcount
  have htotal := EraseFunction.total_le hmem
  exact ⟨first, hfirst, hsize, hle, (hs.total f hf).resolve_left (by omega)⟩

/-- The blocks of a function have bytes. -/
theorem Chip.Sound.start_mem {t : Span} (hs : chip.Sound) (hf : f ∈ chip.eraseFunctions)
    (ht : t ∈ f.layout) : t.start ∈ t := by
  obtain ⟨k, r, hr, j, hj, rfl⟩ := EraseFunction.mem_layout_iff.1 ht
  have hiff := hs.regions f hf r (List.mem_of_getElem? hr)
  rw [Span.mem_def]
  dsimp only
  omega

/-! ## Plans that fit -/

/-- The eraser of an even function has the size of its first blocks. -/
theorem Chip.Leads.fits (hs : chip.Sound) (he : chip.Leads e)
    (heven : ∀ f ∈ chip.eraseFunctions, f.usable = true → f.EvenOver chip.totalSize)
    (hj : (j + 1) * e.blockSize ≤ chip.totalSize) :
    (Block.mk (j * e.blockSize) e.blockSize e.function).Fits chip := by
  obtain ⟨f, r, hget, husable, hr, hsize, hleads⟩ := he
  have hf := List.mem_of_getElem? hget
  obtain ⟨first, hfirst, hpos, hle, htotal⟩ := hs.first hf husable
  have heven := heven f hf husable
  have heq : r.size = first.size :=
    heven.size_eq htotal.le hfirst hpos hr (hle.trans (hleads first hfirst hpos))
  obtain ⟨first', hfirst', hgrid⟩ := heven
  obtain rfl : first = first' := Option.some.inj (hfirst.symm.trans hfirst')
  refine ⟨f, hget, husable, ?_⟩
  rw [← hsize, heq] at hj ⊢
  exact hgrid j hj

/-- **On a chip with even functions, every block of every plan fits** and is aligned to its size. -/
theorem fits_of_even (hs : chip.Sound)
    (heven : ∀ f ∈ chip.eraseFunctions, f.usable = true → f.EvenOver chip.totalSize) {plan : Plan}
    (h : (Plan.prepare chip old new extent filter s).1 = .ok plan) (hb : b ∈ plan.blocks) :
    b.Fits chip ∧ b.Legal chip := by
  obtain ⟨hold, hnew, es, hsel, -, hes, rfl⟩ := prepare_eq h
  have hends : Ends (selectErasers chip extent filter) s _ :=
    selectErasers_leads (vouches_trivial filter chip) trivial
  obtain ⟨-, -, hleads⟩ := hends.2 es hsel
  have hinside := (wellFormed_ofErasers hes hold hnew).blocks_inside hb
  obtain ⟨l, e, j, he, -, rfl⟩ := planned_of_mem_blocks hes hold hnew hb
  have hpos := e.blockSize_pos
  have hfits : (Block.mk (j * e.blockSize) e.blockSize e.function).Fits chip := by
    refine (hleads e (List.mem_of_getElem? he)).2.fits hs heven ?_
    rw [Nat.succ_mul]
    exact hinside
  refine ⟨hfits, hpos, hinside, Nat.mul_mod_left j _, ?_⟩
  obtain ⟨f, hget, husable, hmem⟩ := hfits
  refine ⟨f, hget, husable, EraseFunction.blockSizeAt?_of_mem hmem ?_⟩
  rw [Block.span, Span.mem_def]
  dsimp only
  omega

/-! ## Plans that do not -/

/-- Allows one function. -/
def EraserFilter.only (i : ℕ) : EraserFilter σ := fun _ k => pure (k == i)

theorem vouches_only (chip : Chip) (i : ℕ) :
    (EraserFilter.only i).Vouches chip (fun _ : σ => True) (· = i) :=
  fun _ _ _ => ⟨trivial, fun h => eq_of_beq h⟩

theorem admits_only (chip : Chip) (i : ℕ) :
    (EraserFilter.only i).Admits chip (fun _ : σ => True) i := fun _ _ => ⟨trivial, beq_self_eq_true i⟩

/-- What is erased before needs no erase, on any level. -/
theorem folded_erased {c : Comparison} (hold : ∀ a, Image.differsAt c.old c.new a = true →
    c.old.byte a = c.erased) (l j : ℕ) : c.folded l j = false := by
  induction l generalizing j with
  | zero =>
    unfold folded dirty
    refine Bool.eq_false_iff.2 fun h => ?_
    obtain ⟨a, -, ha⟩ := Span.any_iff.1 h
    rw [Bool.and_eq_true, bne_iff_ne] at ha
    exact ha.2 (hold a ha.1)
  | succ l ih =>
    unfold folded
    simp only [ih, List.countP_false, Function.const_apply, Nat.not_lt_zero, decide_false,
      Bool.and_false]

/-- From erased contents, the plan has every block of the finest eraser in which a byte changes. -/
theorem mem_blocks_erased (hes : Nested (e :: es)) (hold : old = Image.blank chip.totalSize
    chip.erasedValue) (hnew : new.size = chip.totalSize)
    (hj : (j + 1) * e.blockSize ≤ chip.totalSize) {a : ℕ}
    (ha : a ∈ (⟨j * e.blockSize, e.blockSize⟩ : Span)) (hd : old.byte a ≠ new.byte a) :
    ⟨j * e.blockSize, e.blockSize, e.function⟩ ∈ (Plan.ofErasers chip old new (e :: es)).blocks := by
  have hsize : old.size = chip.totalSize := by rw [hold, Image.size_blank]
  have herased : ∀ a, Image.differsAt old new a = true → old.byte a = chip.erasedValue := by
    intro a ha
    have hlt := Image.lt_size_of_ne (hsize.trans hnew.symm) (Image.differsAt_iff.1 ha)
    rw [hold]
    exact Image.byte_blank (hsize ▸ hlt)
  have hlevel : (ofErasers chip (e :: es) old new).size 0 = e.blockSize := size_ofErasers rfl
  have hplanned : (ofErasers chip (e :: es) old new).Planned 0 j := by
    refine ⟨⟨?_, ?_⟩, fun l' j' _ _ hfold => ?_⟩
    · rw [Comparison.count, hlevel]
      exact (Nat.le_div_iff_mul_le e.blockSize_pos).2 hj
    · rw [if_pos rfl, Comparison.span, hlevel]
      exact Span.any_iff.2 ⟨a, ha, Image.differsAt_iff.2 hd⟩
    · exact absurd hfold (Bool.eq_false_iff.1 (folded_erased herased l' j'))
  obtain ⟨u, hu, -, hb⟩ := (mem_units_ofErasers hes hsize hnew rfl).2 ⟨j, hplanned, rfl⟩
  exact mem_blocks_iff.2 ⟨u, hu, hb⟩

/-- A usable function alone is enough for a selection, of erasers with this function. -/
theorem selectErasers_only (hs : chip.Sound) (hget : chip.eraseFunctions[i]? = some f)
    (husable : f.usable = true) (extent : ℕ) (s : Session σ) :
    ∃ e es, (selectErasers chip extent (EraserFilter.only i) s).1 = .ok (e :: es) ∧
      Nested (e :: es) ∧ e.function = i ∧
      ∃ r, f.regions[e.region]? = some r ∧ r.size = e.blockSize := by
  obtain ⟨first, hfirst, hpos, -⟩ := hs.first (List.mem_of_getElem? hget) husable
  have hi : i < Chip.maxEraseFunctions := (List.getElem?_eq_some_iff.1 hget).1.trans_le hs.few
  obtain ⟨o, ho, -⟩ := head?_ofFunction (i := i) hfirst hpos
  have hoffers : Coverage.ofFunction f i ≠ [] := fun h => by rw [h] at ho; cases ho
  have hfound : Ends (selectErasers chip extent (EraserFilter.only i)) s _ :=
    selectErasers_found (vouches_only chip i) hi hget husable (admits_only chip i) hoffers trivial
  obtain ⟨es', hsel⟩ := hfound
  have hends : Ends (selectErasers chip extent (EraserFilter.only i)) s _ :=
    selectErasers_leads (vouches_only chip i) trivial
  obtain ⟨hne, hes, hleads⟩ := hends.2 es' hsel
  obtain ⟨e, es, rfl⟩ := List.exists_cons_of_ne_nil hne
  obtain ⟨hfun, f', r, hget', -, hr, hsize, -⟩ := hleads e List.mem_cons_self
  rw [hfun, hget] at hget'
  cases hget'
  exact ⟨e, es, hsel, hes, hfun, r, hr, hsize⟩

/-- **A function that every plan fits is even**: it is so already if the plan does that changes every
byte of an erased chip with this function alone. -/
theorem evenOver_of_fits (hs : chip.Sound) (hget : chip.eraseFunctions[i]? = some f)
    (husable : f.usable = true) (s : Session σ)
    (hfits : ∀ plan, (Plan.make chip (Image.blank chip.totalSize chip.erasedValue)
        (Image.blank chip.totalSize (chip.erasedValue + 1)) .wholeChip (EraserFilter.only i) s).1 =
          .ok plan → ∀ b ∈ plan.blocks, b.Fits chip) :
    f.EvenOver chip.totalSize := by
  have hf := List.mem_of_getElem? hget
  obtain ⟨first, hfirst, hpos, hle, htotal⟩ := hs.first hf husable
  obtain ⟨e, es, hsel, hes, hfun, r, hr, hsize⟩ := selectErasers_only hs hget husable
    (requiredExtent (Image.blank chip.totalSize chip.erasedValue)
      (Image.blank chip.totalSize (chip.erasedValue + 1)) .wholeChip) s
  have hplan := hfits _ (prepare_ok Image.size_blank Image.size_blank hsel)
  have hep := e.blockSize_pos
  have hdiff : ∀ a < chip.totalSize, (Image.blank chip.totalSize chip.erasedValue).byte a ≠
      (Image.blank chip.totalSize (chip.erasedValue + 1)).byte a := by
    intro a ha
    rw [Image.byte_blank ha, Image.byte_blank ha]
    intro heq
    have := congrArg UInt8.toNat heq
    rw [UInt8.toNat_add, UInt8.toNat_one] at this
    omega
  -- every block of the eraser is in the plan, and so in the layout
  have hgrid : ∀ j, (j + 1) * e.blockSize ≤ chip.totalSize →
      ⟨j * e.blockSize, e.blockSize⟩ ∈ f.layout := by
    intro j hj
    have hj' := hj
    rw [Nat.succ_mul] at hj'
    have hmem : j * e.blockSize ∈ (⟨j * e.blockSize, e.blockSize⟩ : Span) := by
      rw [Span.mem_def]
      dsimp only
      omega
    obtain ⟨f', hget', -, hlayout⟩ := hplan _
      (mem_blocks_erased hes rfl Image.size_blank hj hmem (hdiff _ (by omega)))
    rw [hfun, hget] at hget'
    cases hget'
    exact hlayout
  -- the one at address zero is of the first region
  have hregion : e.blockSize ≤ chip.totalSize := by
    have hmem := List.mem_of_getElem? hr
    have hcount := hs.regions f hf r hmem
    have htot := EraseFunction.total_le hmem
    have hone : r.size ≤ r.total := Nat.le_mul_of_pos_right _ (by omega)
    omega
  have heq : e.blockSize = first.size := by
    have hat := EraseFunction.blockSizeAt?_of_mem (x := 0) (hgrid 0 (by omega))
      (by rw [Span.mem_def]; dsimp only; omega)
    rw [EraseFunction.blockSizeAt?_zero hfirst (by omega)] at hat
    exact (Option.some.inj hat).symm
  exact ⟨first, hfirst, fun j hj => heq ▸ hgrid j (heq ▸ hj)⟩

end Reflash
