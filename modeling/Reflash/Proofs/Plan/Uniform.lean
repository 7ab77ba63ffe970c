import Reflash.Proofs.Chip
import Reflash.Proofs.Plan.Definition

/-!
# Plans on uniform chips

On a chip without defects whose usable erase functions have one region each, the
blocks of a plan leave out no byte that changes, and each of them is a block of the
erase function that it names.

* `covered_ofErasers`: every byte that changes is in some block.
* `legal_ofErasers`: every block can be erased with its function.
* `make_uniform`: a plan is made if the filter admits a usable function.
-/

namespace Reflash

variable {σ : Type} {chip : Chip} {old new : Image} {es : List Eraser}

/-- The block is one of those of the erase function that it names. -/
structure Block.Legal (b : Block) (chip : Chip) : Prop where
  pos : 0 < b.size
  inside : b.start + b.size ≤ chip.totalSize
  aligned : b.start % b.size = 0
  function : ∃ f, chip.eraseFunctions[b.function]? = some f ∧ f.usable = true ∧
    f.blockSizeAt? b.start = some b.size

/-- **Every byte that changes is in some block.** -/
theorem covered_ofErasers (hu : chip.Uniform) (hs : chip.Sound) (hes : Nested es) (hne : es ≠ [])
    (hoffers : ∀ e ∈ es, chip.Offers e) (hold : old.size = chip.totalSize)
    (hnew : new.size = chip.totalSize) {a : ℕ} (ha : old.byte a ≠ new.byte a) :
    ∃ b ∈ (Plan.ofErasers chip old new es).blocks, a ∈ b.span := by
  obtain ⟨e, es, rfl⟩ := List.exists_cons_of_ne_nil hne
  obtain ⟨hdvd, -⟩ := hu.offers hs (hoffers e List.mem_cons_self)
  refine exists_mem_blocks hes hold hnew rfl ?_ ha
  -- no byte is behind the last whole block
  have hlt : a < chip.totalSize := hold ▸ Image.lt_size_of_ne (hold.trans hnew.symm) ha
  exact Nat.div_lt_div_of_lt_of_dvd hdvd hlt

/-- Without blocks, nothing changes. -/
theorem eq_of_units_eq_nil (hu : chip.Uniform) (hs : chip.Sound) (hes : Nested es) (hne : es ≠ [])
    (hoffers : ∀ e ∈ es, chip.Offers e) (hold : old.size = chip.totalSize)
    (hnew : new.size = chip.totalSize) (h : (Plan.ofErasers chip old new es).units = []) :
    old = new := by
  refine Image.ext_byte (hold.trans hnew.symm) fun a _ => ?_
  by_contra ha
  obtain ⟨b, hb, -⟩ := covered_ofErasers hu hs hes hne hoffers hold hnew ha
  rw [mem_blocks_iff, h] at hb
  obtain ⟨u, hu, -⟩ := hb
  cases hu

/-- Where nothing changes, nothing is planned. -/
theorem units_self (hes : Nested es) (hnew : new.size = chip.totalSize) :
    (Plan.ofErasers chip new new es).units = [] := by
  by_contra hne
  obtain ⟨b, hb⟩ := List.exists_mem_of_ne_nil _
    ((wellFormed_ofErasers hes hnew hnew).blocks_ne_nil hne)
  obtain ⟨a, -, ha⟩ := differs_of_mem_blocks hes hnew hnew hb
  exact ha rfl

/-- **Every block can be erased with its function**, for which the filter vouches. -/
theorem legal_ofErasers {A : ℕ → Prop} (hu : chip.Uniform) (hs : chip.Sound) (hes : Nested es)
    (hoffers : ∀ e ∈ es, A e.function ∧ chip.Offers e) (hold : old.size = chip.totalSize)
    (hnew : new.size = chip.totalSize) {b : Block}
    (hb : b ∈ (Plan.ofErasers chip old new es).blocks) : A b.function ∧ b.Legal chip := by
  have hinside := (wellFormed_ofErasers hes hold hnew).blocks_inside hb
  obtain ⟨l, e, j, he, -, rfl⟩ := planned_of_mem_blocks hes hold hnew hb
  obtain ⟨hA, hoffer⟩ := hoffers e (List.mem_of_getElem? he)
  obtain ⟨-, f, hget, husable, hat⟩ := hu.offers hs hoffer
  have hpos := e.blockSize_pos
  refine ⟨hA, hpos, hinside, Nat.mul_mod_left j _, f, hget, husable, hat _ ?_⟩
  dsimp only at hinside ⊢
  omega

/-- No byte behind the end has to be reached. -/
theorem requiredExtent_le (old new : Image) (mode : ExtentMode) :
    requiredExtent old new mode ≤ old.size := by
  cases mode with
  | wholeChip => exact Nat.le_refl _
  | diff =>
    unfold requiredExtent Image.lastDiffering?
    cases h : (Image.shared old new).findLast? (Image.differsAt old new) with
    | none => exact Nat.zero_le _
    | some i =>
      have := (Span.findLast?_mem h).2
      simp only [Image.shared] at this
      simp only [Option.map_some, Option.getD_some]
      omega

/-- **Erasers are selected** if the filter admits a usable function. -/
theorem selectErasers_uniform {filter : EraserFilter σ} {I : σ → Prop} {A : ℕ → Prop} {extent : ℕ}
    {s : Session σ} (hu : chip.Uniform) (hs : chip.Sound) (hextent : extent ≤ chip.totalSize)
    (hf : filter.Vouches chip I A) {i : ℕ} {f : EraseFunction}
    (hget : chip.eraseFunctions[i]? = some f) (husable : f.usable = true)
    (hadmits : filter.Admits chip I i) (hI : I s.device) :
    Ends (selectErasers chip extent filter) s fun r s' => I s'.device ∧
      ∃ es, r = .ok es ∧ es ≠ [] ∧ Nested es ∧ ∀ e ∈ es, A e.function ∧ chip.Offers e := by
  obtain ⟨r, hr, hpos, htotal⟩ := hu.region hs (List.mem_of_getElem? hget) husable
  have hi : i < Chip.maxEraseFunctions :=
    (List.getElem?_eq_some_iff.1 hget).1.trans_le hs.few
  obtain ⟨o, ho, hototal⟩ := exists_ofFunction (f := f) i (r := r)
    (by rw [hr]; exact List.mem_singleton_self r) hpos
  have hends : Ends (selectErasers chip extent filter) s _ := selectErasers_ends hf hI
  refine (hends.and (selectErasers_ok hf hi hget husable hadmits
    ⟨o, ho, hextent.trans_eq (htotal.symm.trans hototal.symm)⟩ hI)).mono ?_
  rintro _ s' ⟨⟨hI', hes⟩, es, rfl⟩
  exact ⟨hI', es, rfl, hes es rfl⟩

/-- **A plan is made** if the filter admits a usable function. -/
theorem make_uniform {filter : EraserFilter σ} {I : σ → Prop} {A : ℕ → Prop} {mode : ExtentMode}
    {s : Session σ} (hu : chip.Uniform) (hs : chip.Sound) (hold : old.size = chip.totalSize)
    (hnew : new.size = chip.totalSize) (hf : filter.Vouches chip I A) {i : ℕ} {f : EraseFunction}
    (hget : chip.eraseFunctions[i]? = some f) (husable : f.usable = true)
    (hadmits : filter.Admits chip I i) (hI : I s.device) :
    Ends (Plan.make chip old new mode filter) s fun r s' => I s'.device ∧
      ∃ es, r = .ok (Plan.ofErasers chip old new es) ∧ es ≠ [] ∧ Nested es ∧
        ∀ e ∈ es, A e.function ∧ chip.Offers e := by
  have hextent : requiredExtent old new mode ≤ chip.totalSize :=
    (requiredExtent_le old new mode).trans_eq hold
  refine (prepare_ends hold hnew (R := fun r dev => I dev ∧ ∃ es, r = .ok es ∧ es ≠ [] ∧ Nested es ∧
    ∀ e ∈ es, A e.function ∧ chip.Offers e)
    (selectErasers_uniform hu hs hextent hf hget husable hadmits hI)).mono ?_
  rintro _ s' ⟨_, ⟨hI', es, rfl, hes⟩, rfl⟩
  exact ⟨hI', es, rfl, hes⟩

end Reflash
