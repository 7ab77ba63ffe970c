import Reflash.Proofs.Plan.Erasers

/-!
# Chips without defects

* `validate_iff`: what a chip that passes its check has.
* `Uniform.region`: on such a chip, a usable erase function with one region lays equal blocks over
  the whole chip.
-/

namespace Reflash.Chip

variable {chip : Chip} {f : EraseFunction} {e : Eraser}

/-- The chip has bytes and not too many erase functions, each of which covers the chip exactly or
nothing, without regions that have only a block size or only a number of blocks. -/
structure Sound (chip : Chip) : Prop where
  size_pos : 0 < chip.totalSize
  few : chip.eraseFunctions.length ≤ maxEraseFunctions
  regions : ∀ f ∈ chip.eraseFunctions, ∀ r ∈ f.regions, r.size = 0 ↔ r.count = 0
  total : ∀ f ∈ chip.eraseFunctions, f.total = 0 ∨ f.total = chip.totalSize

theorem emptyRegion?_eq_none_iff :
    emptyRegion? f = none ↔ ∀ r ∈ f.regions, (r.size = 0 ↔ r.count = 0) := by
  unfold emptyRegion?
  rw [List.findIdx?_eq_none_iff]
  refine forall₂_congr fun r _ => ?_
  rw [bne_eq_false_iff_eq, Bool.beq_eq_decide_eq, Bool.beq_eq_decide_eq, decide_eq_decide]

theorem functionDefect?_eq_none_iff {size i : ℕ} : functionDefect? size f i = none ↔
    (∀ r ∈ f.regions, (r.size = 0 ↔ r.count = 0)) ∧ (f.total = 0 ∨ f.total = size) := by
  rw [← emptyRegion?_eq_none_iff]
  unfold functionDefect?
  cases emptyRegion? f with
  | some r => simp
  | none =>
    dsimp only
    split
    · simp; omega
    · simp; omega

/-- **A chip passes its check exactly if it is sound.** -/
theorem validate_iff : chip.validate = .ok () ↔ chip.Sound := by
  rw [validate_eq_ok_iff]
  unfold defect?
  split
  · rename_i h
    refine ⟨fun h' => ?_, fun h' => absurd h h'.size_pos.ne'⟩
    cases h'
  · split
    · rename_i h
      refine ⟨fun h' => ?_, fun h' => absurd h'.few (Nat.not_le.2 h)⟩
      cases h'
    · rename_i hpos hfew
      rw [List.findSome?_eq_none_iff]
      have hall : (∀ p ∈ chip.eraseFunctions.zipIdx,
          functionDefect? chip.totalSize p.1 p.2 = none) ↔
          ∀ f ∈ chip.eraseFunctions, (∀ r ∈ f.regions, (r.size = 0 ↔ r.count = 0)) ∧
            (f.total = 0 ∨ f.total = chip.totalSize) := by
        constructor
        · intro h f hf
          obtain ⟨i, hi⟩ := List.mem_iff_getElem?.1 hf
          exact functionDefect?_eq_none_iff.1 (h (f, i) (List.mk_mem_zipIdx_iff_getElem?.2 hi))
        · rintro h ⟨f, i⟩ hp
          exact functionDefect?_eq_none_iff.2
            (h f (List.mem_of_getElem? (List.mk_mem_zipIdx_iff_getElem?.1 hp)))
      refine hall.trans ⟨fun h => ?_, fun h f hf => ⟨h.regions f hf, h.total f hf⟩⟩
      exact ⟨by omega, by omega, fun f hf => (h f hf).1, fun f hf => (h f hf).2⟩

/-! ## Uniform chips -/

/-- Every usable erase function has one region. -/
def Uniform (chip : Chip) : Prop :=
  ∀ f ∈ chip.eraseFunctions, f.usable = true → f.regions.length = 1

instance (chip : Chip) : Decidable chip.Uniform :=
  inferInstanceAs (Decidable (∀ f ∈ chip.eraseFunctions, f.usable = true → f.regions.length = 1))

/-- Blocks of `n` bytes are the smallest ones of the usable erase functions. -/
structure Finest (chip : Chip) (n : ℕ) : Prop where
  offered : ∃ f ∈ chip.eraseFunctions, f.usable = true ∧ ∃ r ∈ f.regions, r.size = n
  least : ∀ f ∈ chip.eraseFunctions, f.usable = true → ∀ r ∈ f.regions, n ≤ r.size

/-- A uniform chip of eight bytes, with blocks of four and of two bytes. -/
def small : Chip where
  vendor := "Sample"
  name := "S8"
  totalSize := 8
  pageSize := 4
  granularity := .byte
  eraseFunctions := [.uniform 4 2, .uniform 2 4]

/-- **The blocks of a usable function** of a uniform chip are equal and cover the chip. -/
theorem Uniform.region (hu : chip.Uniform) (hs : chip.Sound) (hf : f ∈ chip.eraseFunctions)
    (husable : f.usable = true) :
    ∃ r, f.regions = [r] ∧ 0 < r.size ∧ r.total = chip.totalSize := by
  obtain ⟨r, hr⟩ := List.length_eq_one_iff.1 (hu f hf husable)
  have hcount : 0 < r.count := by
    unfold EraseFunction.usable at husable
    rw [hr, Bool.and_eq_true, List.head?_cons, Option.any_some, decide_eq_true_eq] at husable
    exact husable.2
  have hsize : 0 < r.size := by
    have := hs.regions f hf r (by rw [hr]; exact List.mem_singleton_self r)
    omega
  refine ⟨r, hr, hsize, ?_⟩
  have htotal : f.total = r.total := by
    unfold EraseFunction.total
    rw [hr, List.foldr_cons, List.foldr_nil, Nat.add_zero]
  rcases hs.total f hf with h | h
  · rw [htotal, Region.total] at h
    exact absurd h (Nat.mul_pos hsize hcount).ne'
  · exact htotal.symm.trans h

/-- What an eraser of a uniform chip is: its blocks cover the chip. -/
theorem Uniform.offers (hu : chip.Uniform) (hs : chip.Sound) (he : chip.Offers e) :
    e.blockSize ∣ chip.totalSize ∧ ∃ f, chip.eraseFunctions[e.function]? = some f ∧
      f.usable = true ∧ ∀ a < chip.totalSize, f.blockSizeAt? a = some e.blockSize := by
  obtain ⟨-, f, r, hget, husable, hr, hsize⟩ := he
  obtain ⟨r', hregions, -, htotal⟩ := hu.region hs (List.mem_of_getElem? hget) husable
  have heq : r = r' := by
    rw [hregions] at hr
    exact List.mem_singleton.1 (List.mem_of_getElem? hr)
  subst heq
  refine ⟨Dvd.intro r.count (hsize ▸ htotal), f, hget, husable, fun a ha => ?_⟩
  unfold EraseFunction.blockSizeAt?
  rw [hregions]
  unfold EraseFunction.blockSizeIn?
  rw [if_pos (htotal ▸ ha), hsize]

end Reflash.Chip
