import Reflash.Proofs.Emulator.Blocks

/-!
# Rewriting without an erase

Where no erase is needed, writing the windows over what is there stores exactly what is wanted
(`rewrite_eq`). On a chip that programs bits, with set bits where it is erased, writes only clear
bits (`Clears`), so nothing but an erase helps where one is needed (`applyAll_ne`). A chip that
programs bits but is erased to anything else is misjudged (`Chip.Misjudged`).
-/

namespace Reflash

/-- What a chip that holds `cur` holds after its windows were written as in `want`. -/
def rewrite (chip : Chip) (cur want : Image) : Image :=
  Command.applyAll chip
    ((windows cur want chip.granularity).map (Command.storing want)) cur

/-- From `m` to `m'`, bits were only cleared. -/
def Clears (m m' : Image) : Prop := ∀ i, m'.byte i &&& m.byte i = m'.byte i

variable {chip : Chip} {cur want m m₁ m₂ : Image} {c : Command} {cs : List Command}

/-- **Where no erase is needed**, the writes of the windows are enough. -/
theorem rewrite_eq (hbits : chip.BitsErased) (hsize : cur.size = want.size)
    (h : needErase cur want chip.granularity chip.erasedValue = false) :
    rewrite chip cur want = want := by
  -- all of the memory is one block
  let b : Block := ⟨0, want.size, 0⟩
  have hstoring : Command.storing want = b.writing want := by
    funext w
    rw [Command.storing, Block.writing, Nat.zero_add]
  have hall : ∀ {x : Image}, x.size = want.size → Image.slice x b.span = x := by
    intro x hx
    simp only [Image.slice, Block.span, b, Nat.zero_add, ← hx, Array.extract_size]
  have hdone := (Emulator.applyAll_writing (b := b) (m := cur) (n := want.size)
    (by simp [b, hsize]) rfl (hall hsize) (pending_keep hbits hsize h)).2 (Nat.le_add_left _ _)
  rw [hall (by rw [Command.size_applyAll, hsize])] at hdone
  unfold rewrite windows
  rw [hstoring]
  exact hdone

/-! ## Bits that are cleared -/

theorem clears_refl (m : Image) : Clears m m := fun _ => UInt8.and_self

theorem Clears.trans (h₁ : Clears m m₁) (h₂ : Clears m₁ m₂) : Clears m m₂ := fun i => by
  calc m₂.byte i &&& m.byte i = (m₂.byte i &&& m₁.byte i) &&& m.byte i := by rw [h₂ i]
    _ = m₂.byte i &&& (m₁.byte i &&& m.byte i) := UInt8.and_assoc _ _ _
    _ = m₂.byte i := by rw [h₁ i, h₂ i]

/-- One write. -/
theorem apply_clears (hg : chip.granularity = .bit) (hset : chip.erasedValue = 0xFF)
    (hc : c.isErase = false) (m : Image) : Clears m (c.apply chip m) := by
  intro i
  by_cases hi : i < m.size
  · cases c with
    | erase f a n => cases hc
    | write a data =>
      by_cases hin : a ≤ i ∧ i < a + data.size
      · rw [Command.byte_write hi hin.1 hin.2, programmedByte, if_neg (by rw [hg]; nofun), hset,
          programByte_set, UInt8.and_comm (m.byte i), UInt8.and_assoc, UInt8.and_self]
      · rw [Command.byte_apply hin, UInt8.and_self]
  · -- behind the end every byte is zero
    rw [Image.byte_eq _ i, Array.getElem?_eq_none (by rw [Command.size_apply]; omega),
      Option.getD_none, UInt8.zero_and]

/-- **Any writes.** -/
theorem applyAll_clears (hg : chip.granularity = .bit) (hset : chip.erasedValue = 0xFF)
    (hcs : ∀ c ∈ cs, c.isErase = false) (m : Image) : Clears m (Command.applyAll chip cs m) := by
  induction cs generalizing m with
  | nil => exact clears_refl m
  | cons c cs ih =>
    obtain ⟨hc, hcs⟩ := List.forall_mem_cons.1 hcs
    exact (apply_clears hg hset hc m).trans (ih hcs _)

/-- **Where an erase is needed**, no writes are enough, whatever they write and where. -/
theorem applyAll_ne (hg : chip.granularity = .bit) (hset : chip.erasedValue = 0xFF)
    (h : needErase cur want chip.granularity chip.erasedValue = true)
    (hcs : ∀ c ∈ cs, c.isErase = false) : Command.applyAll chip cs cur ≠ want := by
  rintro rfl
  unfold needErase at h
  rw [hg] at h
  -- some bit would have to be set again
  obtain ⟨i, -, hlost⟩ := Span.any_iff.1 h
  exact bne_iff_ne.1 hlost ((UInt8.and_comm _ _).trans (applyAll_clears hg hset hcs cur i))

/-! ## Chips with other bits -/

theorem windows_single {x y : UInt8} (h : x ≠ y) : windows #[x] #[y] .bit = [⟨0, 1⟩] := by
  have hd : Window.chunkDiffers #[x] #[y] 1 1 0 = true :=
    Window.chunkDiffers_iff.2 ⟨0, Nat.le_refl 0, by decide, h⟩
  have hw : nextWindow? #[x] #[y] .bit 0 = some ⟨0, 1⟩ := by
    simp [nextWindow?, Granularity.stride, Window.chunkCount, Window.skipEqual, hd,
      Window.skipDiffering, Window.chunkEnd]
  change windowsFrom #[x] #[y] .bit 1 0 = _
  unfold windowsFrom
  rw [hw]
  rfl

/-- A single byte that is not as wanted is written. -/
theorem rewrite_single {x y : UInt8} (hg : chip.granularity = .bit) (h : x ≠ y) :
    rewrite chip #[x] #[y] = #[programByte chip.erasedValue x y] := by
  unfold rewrite
  rw [hg, windows_single h]
  change (Command.write 0 #[y]).apply chip #[x] = _
  refine Image.ext_byte Command.size_apply fun i hi => ?_
  obtain rfl : i = 0 := by
    rw [Command.size_apply] at hi
    exact Nat.lt_one_iff.1 hi
  rw [Command.byte_write (by simp) (Nat.le_refl 0) (by simp), programmedByte, if_neg (by rw [hg]; nofun)]
  rfl

theorem needErase_single {x y erased : UInt8} :
    needErase #[x] #[y] .bit erased = (x &&& y != y) := by
  unfold needErase
  rw [Bool.eq_iff_iff, Span.any_iff]
  constructor
  · rintro ⟨i, ⟨-, hi⟩, h⟩
    obtain rfl : i = 0 := Nat.lt_one_iff.1 hi
    exact h
  · exact fun h => ⟨0, ⟨Nat.le_refl 0, Nat.zero_lt_one⟩, h⟩

/-- What is needed is decided wrongly both ways: what is wanted may not come about although no erase
was needed, and may come about although one was. -/
def Chip.Misjudged (chip : Chip) : Prop :=
  (∃ cur want : Image, cur.size = want.size ∧
    needErase cur want chip.granularity chip.erasedValue = false ∧ rewrite chip cur want ≠ want) ∧
  ∃ cur want : Image, cur.size = want.size ∧
    needErase cur want chip.granularity chip.erasedValue = true ∧ rewrite chip cur want = want

/-- **A chip that programs bits and is not erased to set ones** is misjudged. -/
theorem misjudged (hbits : ¬chip.BitsErased) : chip.Misjudged := by
  obtain ⟨hg, hset⟩ : chip.granularity = .bit ∧ chip.erasedValue ≠ 0xFF := by
    unfold Chip.BitsErased at hbits
    tauto
  have hfull : ∀ v : UInt8, 0xFF &&& v = v := fun v => UInt8.neg_one_and
  refine ⟨⟨#[0xFF], #[chip.erasedValue], rfl, ?_, ?_⟩, #[chip.erasedValue], #[0xFF], rfl, ?_, ?_⟩
  · rw [hg, needErase_single, bne_eq_false_iff_eq, hfull]
  · -- bits that are set have left their erased value
    have hkept : programByte chip.erasedValue 0xFF chip.erasedValue = 0xFF := by
      unfold programByte
      rw [UInt8.xor_self, UInt8.or_zero, ← UInt8.xor_assoc, UInt8.xor_self, UInt8.zero_xor]
    rw [rewrite_single hg hset.symm, hkept]
    exact fun h => hset.symm (by simpa using h)
  · rw [hg, needErase_single, bne_iff_ne, UInt8.and_comm, hfull]
    exact hset
  · rw [rewrite_single hg hset, programByte_erased]

/-- **Whether an erase is needed.** For images of one size, and bits that are set where the chip is
erased if it programs bits: without the need of an erase, writing the windows is enough, and with it
no writes of a chip that programs bits are. A chip that programs other bits is misjudged. -/
theorem rewrite_decided (hsize : cur.size = want.size) :
    (chip.BitsErased → needErase cur want chip.granularity chip.erasedValue = false →
      rewrite chip cur want = want) ∧
    (chip.BitsErased → chip.granularity = .bit →
      needErase cur want chip.granularity chip.erasedValue = true →
      ∀ cs : List Command, (∀ c ∈ cs, c.isErase = false) → Command.applyAll chip cs cur ≠ want) ∧
    (¬chip.BitsErased → chip.Misjudged) :=
  ⟨fun hbits h => rewrite_eq hbits hsize h,
    fun hbits hg h _ hcs => applyAll_ne hg (hbits hg) h hcs, misjudged⟩

/-- A chip whose bits can be cleared. -/
theorem rewrite_decided_clearing :
    let chip : Chip := { Chip.small with granularity := .bit }
    rewrite chip #[0xF0] #[0x30] = #[0x30] ∧
      ∀ cs : List Command, (∀ c ∈ cs, c.isErase = false) →
        Command.applyAll chip cs #[0x00] ≠ #[0x01] := by
  intro chip
  have hbits : chip.BitsErased := fun _ => rfl
  have hsize : ∀ x y : UInt8, (#[x] : Image).size = (#[y] : Image).size := fun _ _ => rfl
  refine ⟨(rewrite_decided (hsize 0xF0 0x30)).1 hbits ?_,
    (rewrite_decided (hsize 0x00 0x01)).2.1 hbits rfl ?_⟩
  · decide +kernel
  · decide +kernel

/-- A chip whose bits can be set, and are cleared by an erase. -/
theorem rewrite_setting :
    let chip : Chip := { Chip.small with granularity := .bit, erasedValue := 0x00 }
    needErase #[0x01] #[0x00] chip.granularity chip.erasedValue = false ∧
      rewrite chip #[0x01] #[0x00] ≠ #[0x00] ∧
      needErase #[0x00] #[0x01] chip.granularity chip.erasedValue = true ∧
      rewrite chip #[0x00] #[0x01] = #[0x01] := by
  decide +kernel

end Reflash
