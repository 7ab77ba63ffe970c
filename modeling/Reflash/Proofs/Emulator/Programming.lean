import Reflash.Emulator
import Reflash.Proofs.Window

/-!
# What can be programmed

A write only moves bits away from their erased value. `Programs` says that a byte
turns into another one by a write, `Pending` is what holds of a block while its
windows are written one after the other: all before the offset is as wanted, and
whatever is left in a chunk that differs can be programmed.

* `Matches.next`: the windows before the offset are as wanted, whatever can be programmed.
* `pending_blank`, `pending_keep`: a block is ready to be written after its erase, and without
  one where none is needed.
* `Pending.next`: it stays so after each window.
* `Partway`: what some of the windows leave, cut at the border of a chunk.
-/

namespace Reflash

/-- A write turns a byte `cell` into `b`. -/
def Programs (chip : Chip) (cell b : UInt8) : Prop :=
  chip.granularity = .byteImplicitErase ∨ programByte chip.erasedValue cell b = b

/-- A chip that programs bits has them set where it is erased. -/
def Chip.BitsErased (chip : Chip) : Prop := chip.granularity = .bit → chip.erasedValue = 0xFF

variable {chip : Chip} {cur want cells data : Image} {offset : ℕ} {w : Span}

/-- An erased byte can be turned into any other. -/
theorem programByte_erased (erased b : UInt8) : programByte erased erased b = b := by
  unfold programByte
  rw [UInt8.xor_self, UInt8.zero_or, ← UInt8.xor_assoc, UInt8.xor_self, UInt8.zero_xor]

/-- Where erased bits are set, a write clears the others. -/
theorem programByte_set (cell b : UInt8) : programByte 0xFF cell b = cell &&& b := by
  -- de Morgan, bit by bit
  have hand : ~~~(~~~cell ||| ~~~b) = cell &&& b := by
    apply UInt8.toBitVec_inj.1
    apply BitVec.eq_of_getLsbD_eq
    intro i hi
    simp [hi]
  unfold programByte
  rw [show (0xFF : UInt8) = -1 from rfl, UInt8.neg_one_xor, UInt8.neg_one_xor, UInt8.neg_one_xor,
    hand]

/-- Where erased bits are set, set bits can be cleared. -/
theorem programByte_of_and {cell b : UInt8} (h : cell &&& b = b) : programByte 0xFF cell b = b :=
  (programByte_set cell b).trans h

/-- Only an erased byte into which an erased one is written stays erased. -/
theorem programByte_eq_erased {erased cell b : UInt8} :
    programByte erased cell b = erased ↔ cell = erased ∧ b = erased := by
  unfold programByte
  calc erased ^^^ ((erased ^^^ cell) ||| (erased ^^^ b)) = erased
      ↔ erased ^^^ ((erased ^^^ cell) ||| (erased ^^^ b)) = erased ^^^ 0 := by rw [UInt8.xor_zero]
    _ ↔ (erased ^^^ cell) ||| (erased ^^^ b) = 0 := UInt8.xor_right_inj erased
    _ ↔ erased = cell ∧ erased = b := by
      rw [UInt8.or_eq_zero_iff, UInt8.xor_eq_zero_iff, UInt8.xor_eq_zero_iff]
    _ ↔ cell = erased ∧ b = erased := and_congr eq_comm eq_comm

/-- What a write makes of a byte, given what was there. -/
def programmedByte (chip : Chip) (cell b : UInt8) : UInt8 :=
  if chip.granularity = .byteImplicitErase then b else programByte chip.erasedValue cell b

/-- **A write works byte by byte.** -/
theorem byte_programmed {i : ℕ} (hcells : i < cells.size) (hdata : i < data.size) :
    (Emulator.programmed chip cells data).byte i =
      programmedByte chip (cells.byte i) (data.byte i) := by
  unfold Emulator.programmed programmedByte
  split
  · rfl
  · simp only [Image.byte_eq, Array.getElem?_eq_getElem hcells, Array.getElem?_eq_getElem hdata,
      Option.getD_some, Array.getElem?_zipWith]

theorem size_programmed (h : cells.size = data.size) :
    (Emulator.programmed chip cells data).size = data.size := by
  unfold Emulator.programmed
  split
  · rfl
  · rw [Array.size_zipWith, h, Nat.min_self]

/-- What a write of a window stores at one of its addresses. -/
theorem byte_programmed_window {m want : Image} {w : Span} {start i : ℕ} (hw : w.stop ≤ want.size)
    (hm : start + want.size ≤ m.size) (hi : i ∈ w) :
    (Emulator.programmed chip (Image.slice m ⟨start + w.start, w.len⟩) (Image.slice want w)).byte
      (i - w.start) = programmedByte chip (m.byte (start + i)) (want.byte i) := by
  obtain ⟨h1, h2⟩ := hi
  unfold Span.stop at hw
  have hlen : (Image.slice want w).size = w.len := Image.size_slice hw
  have hcells : (Image.slice m ⟨start + w.start, w.len⟩).size = w.len :=
    Image.size_slice (by dsimp only; omega)
  have hback : w.start + (i - w.start) = i := Nat.add_sub_cancel' h1
  rw [byte_programmed (by omega) (by omega), Image.byte_slice (by dsimp only; omega),
    Image.byte_slice (by omega), Nat.add_assoc, hback]

theorem programmedByte_of_programs {cell b : UInt8} (h : Programs chip cell b) :
    programmedByte chip cell b = b := by
  unfold programmedByte
  split
  · rfl
  · exact h.resolve_left ‹_›

/-- A write of bytes that can be programmed stores them as they are. -/
theorem programmed_eq (hsize : cells.size = data.size)
    (h : ∀ i < data.size, Programs chip (cells.byte i) (data.byte i)) :
    Emulator.programmed chip cells data = data := by
  refine Image.ext_byte (size_programmed hsize) fun i hi => ?_
  rw [size_programmed hsize] at hi
  rw [byte_programmed (hsize.symm ▸ hi) hi, programmedByte_of_programs (h i hi)]

/-- Up to the offset, where a chunk starts or the images end, `cur` is as wanted. -/
structure Matches (g : Granularity) (cur want : Image) (offset : ℕ) : Prop where
  size : cur.size = want.size
  border : Window.Border g.stride want.size offset
  done : ∀ i < offset, cur.byte i = want.byte i

variable {g : Granularity}

theorem matches_start (g : Granularity) (hsize : cur.size = want.size) : Matches g cur want 0 :=
  ⟨hsize, Window.border_zero, fun i hi => by omega⟩

/-- Behind a window that is written, all is as it was. -/
theorem byte_behind {i : ℕ} (hw : w.stop ≤ want.size) (hi : w.stop ≤ i) :
    (Image.overlay cur w.start (Image.slice want w)).byte i = cur.byte i := by
  unfold Span.stop at hw hi
  exact Image.byte_overlay_outside (by rw [Image.size_slice hw]; omega)

/-- **After a window is written**, all up to its end is as wanted. -/
theorem Matches.next (h : Matches g cur want offset) (hw : nextWindow? cur want g offset = some w) :
    Matches g (Image.overlay cur w.start (Image.slice want w)) want w.stop := by
  obtain ⟨hstart, -, hstop⟩ := nextWindow?_bounds hw
  have hsize := h.size
  have hmin : min cur.size want.size = want.size := by omega
  obtain ⟨hborder, hequal, -⟩ := nextWindow?_eq_some (hmin.symm ▸ h.border) hw
  rw [hmin] at hborder hstop
  refine ⟨Image.size_overlay.trans hsize, hborder, fun i hi => ?_⟩
  unfold Span.stop at hstop hi
  rw [Image.byte_overlay (by omega), Image.size_slice hstop]
  split
  · rename_i hin
    rw [Image.byte_slice (by omega), Nat.add_sub_cancel' hin.1]
  · by_cases ho : i < offset
    · exact h.done i ho
    · exact hequal i (by omega) (by omega)

/-- **Without a window left**, all is as wanted. -/
theorem Matches.eq (h : Matches g cur want offset)
    (hw : nextWindow? cur want g offset = none ∨ want.size ≤ offset) : cur = want := by
  have hsize := h.size
  have hmin : min cur.size want.size = want.size := by omega
  refine Image.ext_byte hsize fun i hi => ?_
  by_cases ho : i < offset
  · exact h.done i ho
  · rcases hw with hw | hw
    · exact nextWindow?_eq_none (hmin.symm ▸ h.border) hw i (by omega) (by omega)
    · omega

/-- Up to the offset, where a chunk starts or the images end, `cur` is as wanted. Behind it, every
byte in a chunk that differs can be programmed. -/
structure Pending (chip : Chip) (cur want : Image) (offset : ℕ) : Prop where
  size : cur.size = want.size
  border : Window.Border chip.granularity.stride want.size offset
  done : ∀ i < offset, cur.byte i = want.byte i
  programs : ∀ i, offset ≤ i → i < want.size →
    Window.differsAround cur want chip.granularity.stride want.size i →
      Programs chip (cur.byte i) (want.byte i)

theorem pending_blank (chip : Chip) (want : Image) :
    Pending chip (Image.blank want.size chip.erasedValue) want 0 := by
  refine ⟨Image.size_blank, Window.border_zero, fun i hi => by omega, fun i _ hi _ => .inr ?_⟩
  rw [Image.byte_blank hi, programByte_erased]

theorem pending_keep (hbits : chip.BitsErased) (hsize : cur.size = want.size)
    (h : needErase cur want chip.granularity chip.erasedValue = false) :
    Pending chip cur want 0 := by
  refine ⟨hsize, Window.border_zero, fun i hi => by omega, fun i _ hi hd => ?_⟩
  rw [← Nat.min_self want.size] at hd
  nth_rewrite 1 [← hsize] at hd
  -- the three reasons for which no erase was needed
  rcases of_not_needErase h (by omega) hd with hg | ⟨hg, hand⟩ | he
  · exact .inl hg
  · right
    rw [hbits hg]
    exact programByte_of_and hand
  · right
    rw [he, programByte_erased]

/-- A window that is found can be programmed. -/
theorem Pending.programmed (h : Pending chip cur want offset)
    (hw : nextWindow? cur want chip.granularity offset = some w) :
    Emulator.programmed chip (Image.slice cur w) (Image.slice want w) = Image.slice want w := by
  obtain ⟨hstart, -, hstop⟩ := nextWindow?_bounds hw
  have hsize := h.size
  have hmin : min cur.size want.size = want.size := by omega
  obtain ⟨-, -, hdiffer⟩ := nextWindow?_eq_some (hmin.symm ▸ h.border) hw
  unfold Span.stop at hstop
  refine programmed_eq ?_ fun i hi => ?_
  · rw [Image.size_slice (by omega), Image.size_slice (by omega)]
  · rw [Image.size_slice (by omega)] at hi
    rw [Image.byte_slice hi, Image.byte_slice hi]
    have := hdiffer (w.start + i) ⟨Nat.le_add_right _ _, by omega⟩
    rw [hmin] at this
    exact h.programs _ (by omega) (by omega) this

theorem Pending.matches (h : Pending chip cur want offset) :
    Matches chip.granularity cur want offset := ⟨h.size, h.border, h.done⟩

/-- **After a window is written**, the block is pending behind it. -/
theorem Pending.next (h : Pending chip cur want offset)
    (hw : nextWindow? cur want chip.granularity offset = some w) :
    Pending chip (Image.overlay cur w.start (Image.slice want w)) want w.stop := by
  obtain ⟨hstart, -, hstop⟩ := nextWindow?_bounds hw
  have hnext := h.matches.next hw
  have hle : w.stop ≤ want.size := hnext.border.1
  refine ⟨hnext.size, hnext.border, hnext.done, fun i hi hlt hd => ?_⟩
  rw [byte_behind hle hi]
  refine h.programs i ?_ hlt ?_
  · unfold Span.stop at hi
    omega
  -- the chunk of `i` lies behind the window
  have hchunk : w.stop ≤ i / chip.granularity.stride * chip.granularity.stride := by
    rcases hnext.border.2 with ⟨k, hk⟩ | hk
    · rw [hk, Nat.mul_comm] at hi ⊢
      exact Nat.mul_le_mul_right _ ((Nat.le_div_iff_mul_le chip.granularity.stride_pos).2 hi)
    · omega
  obtain ⟨j, h1, h2, hne⟩ := Window.chunkDiffers_iff.1 hd
  rw [byte_behind hle (hchunk.trans h1)] at hne
  exact Window.chunkDiffers_iff.2 ⟨j, h1, h2, hne⟩

/-- In `part`, all is as wanted up to some border of a chunk at or behind the offset, and as in `cur`
from there on. -/
def Partway (chip : Chip) (cur want : Image) (offset : ℕ) (part : Image) : Prop :=
  ∃ k, offset ≤ k ∧ Window.Border chip.granularity.stride want.size k ∧
    ∀ i < want.size, part.byte i = if i < k then want.byte i else cur.byte i

/-- What is not written yet is partway at the offset. -/
theorem Pending.partway (h : Pending chip cur want offset) : Partway chip cur want offset cur := by
  refine ⟨offset, Nat.le_refl _, h.border, fun i _ => ?_⟩
  split
  · exact h.done i ‹_›
  · rfl

/-- What is partway behind a window that is written is partway. -/
theorem Partway.back {part : Image} (hoffset : offset ≤ w.stop) (hw : w.stop ≤ want.size)
    (h : Partway chip (Image.overlay cur w.start (Image.slice want w)) want w.stop part) :
    Partway chip cur want offset part := by
  obtain ⟨k, hk, hborder, hpart⟩ := h
  refine ⟨k, hoffset.trans hk, hborder, fun i hi => (hpart i hi).trans ?_⟩
  split
  · rfl
  · exact byte_behind hw (by omega)

theorem Partway.byte {part : Image} {i : ℕ} (h : Partway chip cur want offset part)
    (hi : i < want.size) : part.byte i = cur.byte i ∨ part.byte i = want.byte i := by
  obtain ⟨k, -, -, hpart⟩ := h
  rw [hpart i hi]
  split
  · exact .inr rfl
  · exact .inl rfl

/-- Without a window left, all is as wanted. -/
theorem Pending.eq (h : Pending chip cur want offset)
    (hw : nextWindow? cur want chip.granularity offset = none ∨ want.size ≤ offset) :
    cur = want := h.matches.eq hw

end Reflash
