import Reflash.Span

/-!
# Images

An `Image` holds the contents of a memory, byte `i` at address `i`. Images are
compared byte by byte and changed by laying data over them.

* `getElem?_overlay`: laid over an image, data replaces exactly the bytes below it.
* `differsAt_iff`: `differsAt` tells two bytes apart.
-/

namespace Reflash

/-- The contents of a memory, one byte per address from zero on. -/
abbrev Image := Array UInt8

namespace Image

/-- `n` bytes, all equal to `b`. -/
def blank (n : Nat) (b : UInt8) : Image := Array.replicate n b

/-- The byte at address `i`, zero behind the end. -/
@[inline] def byte (m : Image) (i : Nat) : UInt8 := m.getD i 0

/-- The bytes of `m` in the span. -/
def slice (m : Image) (s : Span) : Image := m.extract s.start (s.start + s.len)

/-- Lays `data` over `m` from address `a` on; what would lie behind the end of `m` is dropped. -/
def overlay (m : Image) (a : Nat) (data : Image) : Image :=
  data.size.fold (fun i h m => m.setIfInBounds (a + i) data[i]) m

/-- The image cut or filled up with zeros to `n` bytes. -/
def resize (m : Image) (n : Nat) : Image :=
  if n < m.size then m.extract 0 n else m ++ blank (n - m.size) 0

/-- Whether the images hold different bytes at address `i`. -/
@[inline] def differsAt (x y : Image) (i : Nat) : Bool := x.byte i != y.byte i

/-- The addresses that both images have. -/
def shared (x y : Image) : Span := ⟨0, min x.size y.size⟩

/-- How many of the bytes that both images have differ. -/
def countDiffering (x y : Image) : Nat := (shared x y).count (differsAt x y)

/-- The highest address that both images have and at which they differ. -/
def lastDiffering? (x y : Image) : Option Nat := (shared x y).findLast? (differsAt x y)

theorem size_blank {n : Nat} {b : UInt8} : (blank n b).size = n := by simp [blank]

theorem byte_blank {n : Nat} {b : UInt8} {i : Nat} (h : i < n) : byte (blank n b) i = b := by
  simp [byte, blank, Array.getD, h]

theorem differsAt_iff {x y : Image} {i : Nat} :
    differsAt x y i = true ↔ byte x i ≠ byte y i := by simp [differsAt]

/-- The first `n` bytes of `data` laid over `m` from address `a` on. -/
private def overlayFirst (m : Image) (a : Nat) (data : Image) (n : Nat) (hn : n ≤ data.size) :
    Image :=
  n.fold (fun i h m =>
    have : i < data.size := Nat.lt_of_lt_of_le h hn
    m.setIfInBounds (a + i) data[i]) m

private theorem size_overlayFirst {m : Image} {a : Nat} {data : Image} (n : Nat)
    (hn : n ≤ data.size) : (overlayFirst m a data n hn).size = m.size := by
  induction n with
  | zero => simp [overlayFirst]
  | succ n ih =>
    have h := ih (by omega)
    rw [overlayFirst] at h ⊢
    simp [Nat.fold_succ, h]

private theorem getElem?_overlayFirst {m : Image} {a : Nat} {data : Image} (n : Nat)
    (hn : n ≤ data.size) (i : Nat) :
    (overlayFirst m a data n hn)[i]? =
      if a ≤ i ∧ i < a + n ∧ i < m.size then data[i - a]? else m[i]? := by
  induction n with
  | zero => simp [overlayFirst]; omega
  | succ n ih =>
    have step : overlayFirst m a data (n + 1) hn =
        (overlayFirst m a data n (by omega)).setIfInBounds (a + n) data[n] := by
      rw [overlayFirst, Nat.fold_succ]; rfl
    rw [step, Array.getElem?_setIfInBounds, ih (by omega), size_overlayFirst]
    by_cases h : a + n = i
    · subst h
      by_cases h2 : a + n < m.size <;> simp [h2]
    · by_cases h2 : a ≤ i ∧ i < a + n ∧ i < m.size
      · rw [if_neg h, if_pos h2, if_pos (by omega)]
      · rw [if_neg h, if_neg h2, if_neg (by omega)]

theorem size_overlay {m : Image} {a : Nat} {data : Image} : (overlay m a data).size = m.size :=
  size_overlayFirst data.size (Nat.le_refl _)

/-- Laid over an image, data replaces exactly the bytes below it. -/
theorem getElem?_overlay {m : Image} {a : Nat} {data : Image} {i : Nat} :
    (overlay m a data)[i]? =
      if a ≤ i ∧ i < a + data.size ∧ i < m.size then data[i - a]? else m[i]? :=
  getElem?_overlayFirst data.size (Nat.le_refl _) i

end Image

end Reflash
