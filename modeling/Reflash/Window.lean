import Reflash.Chip.Granularity
import Reflash.Image

/-!
# Write windows

Contents are compared in the chunks of a chip's write granularity. `needErase`
decides whether they can be changed without an erase; a write window is a run of
chunks that differ.

* `nextWindow?_bounds`: a window is not empty, starts at or behind the offset it was
  looked for from, and lies inside both images.
-/

namespace Reflash

/-- Whether `cur` has to be erased before it can be changed to `want`. The images have one
size. -/
def needErase (cur want : Image) (g : Granularity) (erased : UInt8) : Bool :=
  let all := Image.shared cur want
  match g with
  | .bit => all.any fun i => cur.byte i &&& want.byte i != want.byte i
  | .byte => all.any fun i => Image.differsAt cur want i && cur.byte i != erased
  | .byteImplicitErase => false
  | _ =>
    -- A chunk that changes can only be programmed if all of it is erased.
    (all.pieces g.stride).any fun p =>
      p.any (Image.differsAt cur want) && p.any fun i => cur.byte i != erased

namespace Window

/-- Chunks are cut from the offset a search starts at; the last one may be shorter. -/
def chunkEnd (stride size pos : Nat) : Nat := min (pos + stride) size

/-- The chunk at `pos` differs. -/
def chunkDiffers (cur want : Image) (stride size pos : Nat) : Bool :=
  Span.any ⟨pos, chunkEnd stride size pos - pos⟩ (Image.differsAt cur want)

/-- The first of the next `n` chunks that differs, or the end of these chunks. -/
def skipEqual (cur want : Image) (stride size : Nat) : Nat → Nat → Nat
  | 0, pos => pos
  | n + 1, pos =>
    if chunkDiffers cur want stride size pos then pos
    else skipEqual cur want stride size n (chunkEnd stride size pos)

/-- The first of the next `n` chunks that does not differ, or the end of these chunks. -/
def skipDiffering (cur want : Image) (stride size : Nat) : Nat → Nat → Nat
  | 0, pos => pos
  | n + 1, pos =>
    if chunkDiffers cur want stride size pos then
      skipDiffering cur want stride size n (chunkEnd stride size pos)
    else pos

/-- How many chunks there are from `pos` on. -/
def chunkCount (stride size pos : Nat) : Nat := (size - pos + stride - 1) / stride

end Window

open Window in
/-- The next run of chunks in which the images differ, from `offset` on. -/
def nextWindow? (cur want : Image) (g : Granularity) (offset : Nat) : Option Span :=
  let size := min cur.size want.size
  let start := skipEqual cur want g.stride size (chunkCount g.stride size offset) offset
  if start < size then
    let stop := skipDiffering cur want g.stride size (chunkCount g.stride size start) start
    some ⟨start, stop - start⟩
  else none

/-- At most `n` windows from `offset` on. -/
def windowsFrom (cur want : Image) (g : Granularity) : Nat → Nat → List Span
  | 0, _ => []
  | n + 1, offset =>
    match nextWindow? cur want g offset with
    | none => []
    | some w => w :: windowsFrom cur want g n w.stop

/-- All windows. No window is empty, so there are not more than bytes. -/
def windows (cur want : Image) (g : Granularity) : List Span :=
  windowsFrom cur want g want.size 0

namespace Window

variable {cur want : Image} {stride size : Nat}

theorem le_skipEqual (n pos : Nat) (h : pos ≤ size) :
    pos ≤ skipEqual cur want stride size n pos ∧ skipEqual cur want stride size n pos ≤ size := by
  induction n generalizing pos with
  | zero => simp [skipEqual, h]
  | succ n ih =>
    have hc : pos ≤ chunkEnd stride size pos ∧ chunkEnd stride size pos ≤ size := by
      unfold chunkEnd; omega
    simp only [skipEqual]
    split
    · omega
    · have := ih _ hc.2
      omega

theorem le_skipDiffering (n pos : Nat) (h : pos ≤ size) :
    pos ≤ skipDiffering cur want stride size n pos ∧
      skipDiffering cur want stride size n pos ≤ size := by
  induction n generalizing pos with
  | zero => simp [skipDiffering, h]
  | succ n ih =>
    have hc : pos ≤ chunkEnd stride size pos ∧ chunkEnd stride size pos ≤ size := by
      unfold chunkEnd; omega
    simp only [skipDiffering]
    split
    · have := ih _ hc.2
      omega
    · omega

/-- Behind a chunk there is one chunk less. -/
theorem chunkCount_chunkEnd_le (hs : 0 < stride) {n pos : Nat}
    (hn : chunkCount stride size pos ≤ n + 1) :
    chunkCount stride size (chunkEnd stride size pos) ≤ n := by
  unfold chunkCount chunkEnd at *
  by_cases hp : pos + stride ≤ size
  · rw [Nat.min_eq_left hp]
    have : size - pos + stride - 1 = (size - (pos + stride) + stride - 1) + stride := by omega
    rw [this, Nat.add_div_right _ hs] at hn
    omega
  · rw [Nat.min_eq_right (by omega), Nat.sub_self, Nat.zero_add, Nat.div_eq_of_lt (by omega)]
    exact Nat.zero_le _

/-- Where the images have not ended, there is a chunk. -/
theorem chunkCount_pos (hs : 0 < stride) {pos : Nat} (h : pos < size) :
    0 < chunkCount stride size pos := by
  unfold chunkCount
  exact Nat.div_pos (by omega) hs

/-- If not all of the chunks are equal, the search stops at one that differs. -/
theorem chunkDiffers_skipEqual (hs : 0 < stride) (n pos : Nat) (hn : chunkCount stride size pos ≤ n)
    (h : skipEqual cur want stride size n pos < size) :
    chunkDiffers cur want stride size (skipEqual cur want stride size n pos) = true := by
  induction n generalizing pos with
  | zero =>
    have := chunkCount_pos hs h
    simp only [skipEqual] at this
    omega
  | succ n ih =>
    simp only [skipEqual] at h ⊢
    split at h <;> rename_i hd
    · simp only [hd, if_true]
    · simp only [hd] at h ⊢
      exact ih _ (chunkCount_chunkEnd_le hs hn) h

/-- If not all of the chunks differ, the search stops at one that is equal. -/
theorem not_chunkDiffers_skipDiffering (hs : 0 < stride) (n pos : Nat)
    (hn : chunkCount stride size pos ≤ n)
    (h : skipDiffering cur want stride size n pos < size) :
    chunkDiffers cur want stride size (skipDiffering cur want stride size n pos) = false := by
  induction n generalizing pos with
  | zero =>
    have := chunkCount_pos hs h
    simp only [skipDiffering] at this
    omega
  | succ n ih =>
    simp only [skipDiffering] at h ⊢
    split at h <;> rename_i hd
    · simp only [hd, if_true]
      exact ih _ (chunkCount_chunkEnd_le hs hn) h
    · simp only [hd]
      exact Bool.eq_false_iff.2 hd

end Window

/-- A window is not empty, starts at or behind the offset it was looked for from, and lies
inside both images. -/
theorem nextWindow?_bounds {cur want : Image} {g : Granularity} {offset : Nat} {w : Span}
    (h : nextWindow? cur want g offset = some w) :
    offset ≤ w.start ∧ 0 < w.len ∧ w.stop ≤ min cur.size want.size := by
  unfold nextWindow? at h
  by_cases ho : offset ≤ min cur.size want.size
  case neg =>
    have hc : Window.chunkCount g.stride (min cur.size want.size) offset = 0 := by
      unfold Window.chunkCount
      exact Nat.div_eq_of_lt (by have := g.stride_pos; omega)
    simp only [hc, Window.skipEqual] at h
    rw [if_neg (by omega)] at h
    cases h
  simp only at h
  split at h
  case isFalse => cases h
  rename_i hlt
  have h1 := @Window.le_skipEqual cur want g.stride _
    (Window.chunkCount g.stride (min cur.size want.size) offset) offset ho
  have hd := Window.chunkDiffers_skipEqual g.stride_pos _ offset (Nat.le_refl _) hlt
  generalize Window.skipEqual cur want g.stride (min cur.size want.size)
    (Window.chunkCount g.stride (min cur.size want.size) offset) offset = start at *
  have hn := Window.chunkCount_pos g.stride_pos hlt
  obtain ⟨n, hn⟩ := Nat.exists_eq_succ_of_ne_zero (Nat.pos_iff_ne_zero.1 hn)
  have hs := g.stride_pos
  have hc : start < Window.chunkEnd g.stride (min cur.size want.size) start ∧
      Window.chunkEnd g.stride (min cur.size want.size) start ≤ min cur.size want.size := by
    unfold Window.chunkEnd; omega
  have h2 := @Window.le_skipDiffering cur want g.stride _ n _ hc.2
  simp only [hn, Nat.succ_eq_add_one, Window.skipDiffering, hd, if_true, Option.some.injEq] at h
  subst h
  simp only [Span.stop]
  omega

end Reflash
