import Mathlib
import Reflash.Image

/-!
# Slices and overlays

Images are compared byte by byte, behind the end every byte counts as zero.

* `slice_overlay`, `slice_overlay_part`: what is read where something was laid over.
* `overlay_overlay`: changing a part and putting it back changes the whole.
* `agree_iff_slice`: where two images hold the same bytes, they have the same slice.
-/

namespace Reflash.Image

variable {m x y data : Image} {a b i n : ℕ} {s t : Span} {v : UInt8}

theorem byte_eq (m : Image) (i : ℕ) : m.byte i = m[i]?.getD 0 := by
  rw [byte, Array.getD_eq_getD_getElem?]

theorem ext_byte (hsize : x.size = y.size) (h : ∀ i < x.size, x.byte i = y.byte i) : x = y := by
  refine Array.ext hsize fun i hi hi' => ?_
  have := h i hi
  rwa [byte_eq, byte_eq, Array.getElem?_eq_getElem hi, Array.getElem?_eq_getElem hi'] at this

/-- The image of `n` bytes with byte `f i` at address `i`. -/
def tabulate (n : ℕ) (f : ℕ → UInt8) : Image := Array.ofFn fun i : Fin n => f i

theorem size_tabulate (n : ℕ) (f : ℕ → UInt8) : (tabulate n f).size = n := Array.size_ofFn

theorem byte_tabulate (n : ℕ) (f : ℕ → UInt8) (i : ℕ) :
    (tabulate n f).byte i = if i < n then f i else 0 := by
  rw [byte_eq, tabulate, Array.getElem?_ofFn]
  by_cases hi : i < n <;> simp [hi]

/-- Images of one size only differ inside. -/
theorem lt_size_of_ne (hsize : x.size = y.size) (h : x.byte i ≠ y.byte i) : i < x.size := by
  by_contra hge
  rw [byte_eq, byte_eq, Array.getElem?_eq_none (by omega), Array.getElem?_eq_none (by omega)] at h
  exact h rfl

theorem size_slice (h : s.start + s.len ≤ m.size) : (slice m s).size = s.len := by
  rw [slice, Array.size_extract]
  omega

theorem getElem?_slice (hi : i < s.len) : (slice m s)[i]? = m[s.start + i]? := by
  rw [slice, Array.getElem?_extract]
  split
  · rfl
  · rw [Array.getElem?_eq_none (by omega)]

theorem byte_slice (hi : i < s.len) : (slice m s).byte i = m.byte (s.start + i) := by
  rw [byte_eq, byte_eq, getElem?_slice hi]

theorem slice_blank (h : s.start + s.len ≤ n) : slice (blank n v) s = blank s.len v := by
  have hsize : (slice (blank n v) s).size = s.len := size_slice (size_blank.symm ▸ h)
  refine ext_byte (hsize.trans size_blank.symm) fun i hi => ?_
  rw [hsize] at hi
  rw [byte_slice hi, byte_blank (by omega), byte_blank hi]

theorem slice_slice (h : t.start + t.len ≤ n) :
    slice (slice m ⟨a, n⟩) t = slice m ⟨a + t.start, t.len⟩ := by
  unfold slice
  rw [Array.extract_extract]
  congr 1
  dsimp only
  omega

theorem byte_overlay (hi : i < m.size) : (overlay m a data).byte i =
    if a ≤ i ∧ i < a + data.size then data.byte (i - a) else m.byte i := by
  rw [byte_eq, getElem?_overlay]
  by_cases h : a ≤ i ∧ i < a + data.size
  · rw [if_pos ⟨h.1, h.2, hi⟩, if_pos h, byte_eq]
  · rw [if_neg (fun h' => h ⟨h'.1, h'.2.1⟩), if_neg h, byte_eq]

/-- Outside of what was laid over an image, it is as it was. -/
theorem byte_overlay_outside (h : ¬(a ≤ i ∧ i < a + data.size)) :
    (overlay m a data).byte i = m.byte i := by
  rw [byte_eq, getElem?_overlay, if_neg (by omega), byte_eq]

/-- What was laid over an image is read there. -/
theorem slice_overlay (h : a + x.size ≤ m.size) : slice (overlay m a x) ⟨a, x.size⟩ = x := by
  refine Array.ext_getElem? fun i => ?_
  by_cases hi : i < x.size
  · rw [getElem?_slice hi, getElem?_overlay,
      if_pos ⟨by simp, by simpa using hi, by dsimp only; omega⟩]
    simp
  · rw [Array.getElem?_eq_none (by rw [size_slice (by rwa [size_overlay])]; dsimp only; omega),
      Array.getElem?_eq_none (by omega)]

/-- A part of what was laid over an image. -/
theorem slice_overlay_part (h : a + x.size ≤ m.size) (ht : t.start + t.len ≤ x.size) :
    slice (overlay m a x) ⟨a + t.start, t.len⟩ = slice x t := by
  refine Array.ext_getElem? fun i => ?_
  by_cases hi : i < t.len
  · rw [getElem?_slice (s := ⟨a + t.start, t.len⟩) hi, getElem?_slice hi, getElem?_overlay,
      if_pos ⟨by dsimp only; omega, by dsimp only; omega, by dsimp only; omega⟩]
    dsimp only
    rw [Nat.add_assoc, Nat.add_sub_cancel_left]
  · have hin : a + t.start + t.len ≤ (overlay m a x).size := by
      rw [size_overlay]
      omega
    have hsize : (slice (overlay m a x) ⟨a + t.start, t.len⟩).size = t.len := size_slice hin
    rw [Array.getElem?_eq_none (by omega), Array.getElem?_eq_none (by rw [size_slice ht]; omega)]

/-- Putting back what is there changes nothing. -/
theorem overlay_slice (m : Image) (s : Span) : overlay m s.start (slice m s) = m := by
  refine Array.ext_getElem? fun i => ?_
  rw [getElem?_overlay]
  split
  · rename_i h
    obtain ⟨h1, h2, -⟩ := h
    rw [slice, Array.size_extract] at h2
    rw [getElem?_slice (by omega), Nat.add_sub_cancel' h1]
  · rfl

/-- **A change of a part that is put back** is the same change of the whole. -/
theorem overlay_overlay (h : b + y.size ≤ x.size) :
    overlay m a (overlay x b y) = overlay (overlay m a x) (a + b) y := by
  refine Array.ext_getElem? fun i => ?_
  rw [getElem?_overlay, getElem?_overlay, getElem?_overlay, getElem?_overlay, size_overlay,
    size_overlay]
  -- an address is below `y`, below the rest of `x`, or below neither
  by_cases hy : a + b ≤ i ∧ i < a + b + y.size ∧ i < m.size
  · rw [if_pos hy, if_pos (by omega), if_pos (by omega), Nat.sub_sub]
  · rw [if_neg hy]
    by_cases hx : a ≤ i ∧ i < a + x.size ∧ i < m.size
    · rw [if_pos hx, if_pos hx, if_neg (by omega)]
    · rw [if_neg hx, if_neg hx]

/-- All of an image is replaced. -/
theorem overlay_all (h : x.size = m.size) : overlay m 0 x = x := by
  refine Array.ext_getElem? fun i => ?_
  rw [getElem?_overlay]
  split
  · rw [Nat.sub_zero]
  · rw [Array.getElem?_eq_none (by omega), Array.getElem?_eq_none (by omega)]

/-- The images hold the same bytes in the span. -/
def Agree (s : Span) (x y : Image) : Prop := ∀ a ∈ s, x.byte a = y.byte a

theorem Agree.trans {z : Image} (h₁ : Agree s x y) (h₂ : Agree s y z) : Agree s x z :=
  fun a ha => (h₁ a ha).trans (h₂ a ha)

/-- Images that both have the span agree on it exactly if they are the same there. -/
theorem agree_iff_slice (hx : s.stop ≤ x.size) (hy : s.stop ≤ y.size) :
    Agree s x y ↔ slice x s = slice y s := by
  constructor
  · intro h
    refine ext_byte ((size_slice hx).trans (size_slice hy).symm) fun i hi => ?_
    rw [size_slice hx] at hi
    rw [byte_slice hi, byte_slice hi]
    exact h _ ⟨Nat.le_add_right _ _, by omega⟩
  · rintro h a ⟨h1, h2⟩
    have := congrArg (byte · (a - s.start)) h
    rwa [byte_slice (by omega), byte_slice (by omega), Nat.add_sub_cancel' h1] at this

end Reflash.Image
