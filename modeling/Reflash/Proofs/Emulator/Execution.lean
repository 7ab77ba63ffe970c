import Reflash.Proofs.Emulator.Contents
import Reflash.Proofs.Emulator.Programming
import Reflash.Proofs.Execution.Rules

/-!
# Executions on a reliable chip

Without stuck bits and with a busy flag that clears in time, an operation of the
emulated chip is refused before anything happens or is carried out as asked. Then
the copy of the contents is always what the memory holds (`Shows`), also if a block
fails, and a block that does not fail is turned into what it should hold.

* `eraseBlock_clears`, `writeWindow_stores`: the steps of a block, also with a wrong copy.
* `writeWindows_shows`: the writes of a block.
* `processBlock_shows`: one block.
-/

namespace Reflash.Emulator

/-- No bit is stuck, no address keeps the chip busy, and it is waited for long enough. -/
structure Reliable (c : EmulatorConfig) : Prop where
  stuckBits : c.stuckBits = []
  stuckBusyAt : c.stuckBusyAt = none
  polls : c.busyPolls < 1000

/-- Since `e`, only the bytes of block `b` changed, into `part`. -/
structure Shows (e : Emulator) (b : Block) (part : Image) (e' : Emulator) : Prop where
  config : e'.config = e.config
  ready : e'.stuckBusy = false
  size : part.size = b.size
  memory : e'.memory = Image.overlay e.memory b.start part

/-- A command of the block was refused with this error. -/
def Refuses (e : Emulator) (b : Block) (err : FlashError) : Prop :=
  e.checkErase b.function b.start b.size = .error err ∨
    ∃ w : Span, w.start + w.len ≤ b.size ∧ access e.config (b.start + w.start) w.len = .error err

variable {e e' : Emulator} {b : Block} {part data want : Image} {w : Span} {chip : Chip}
  {policy : Policy} {s : Session Emulator} {ex : Execution Emulator}

theorem Shows.refl (hready : e.stuckBusy = false) (hb : b.start + b.size ≤ e.memory.size) :
    e.Shows b (Image.slice e.memory b.span) e :=
  ⟨rfl, hready, Image.size_slice hb, (Image.overlay_slice e.memory b.span).symm⟩

theorem Shows.alike (h : e.Shows b part e') : e.Alike e' :=
  ⟨h.config, by rw [h.memory, Image.size_overlay]⟩

theorem Shows.untouched {e'' : Emulator} (h : e.Shows b part e') (hu : e'.Untouched e'') :
    e.Shows b part e'' :=
  ⟨hu.config.trans h.config, hu.stuckBusy.trans h.ready, h.size, hu.memory.trans h.memory⟩

/-- What the chip holds of a part of the block. -/
theorem Shows.slice (h : e.Shows b part e') (hb : b.start + b.size ≤ e.memory.size)
    (hw : w.start + w.len ≤ b.size) :
    Image.slice e'.memory ⟨b.start + w.start, w.len⟩ = Image.slice part w := by
  rw [h.memory]
  exact Image.slice_overlay_part (h.size.symm ▸ hb) (h.size.symm ▸ hw)

/-- The emulator is as it was, except that its memory is now `m`. -/
structure Holds (e : Emulator) (m : Image) (e' : Emulator) : Prop where
  config : e'.config = e.config
  ready : e'.stuckBusy = false
  memory : e'.memory = m

theorem Holds.untouched {m : Image} {e'' : Emulator} (h : e.Holds m e') (hu : e'.Untouched e'') :
    e.Holds m e'' :=
  ⟨hu.config.trans h.config, hu.stuckBusy.trans h.ready, hu.memory.trans h.memory⟩

/-- What changed in a block is what changed in all of the memory. -/
theorem Holds.overlay {m : Image} {e'' : Emulator} (h : e.Holds m e') (hs : e'.Shows b part e'') :
    e.Holds (Image.overlay m b.start part) e'' := by
  have hmemory := hs.memory
  rw [h.memory] at hmemory
  exact ⟨hs.config.trans h.config, hs.ready, hmemory⟩

/-! ## What is refused -/

theorem checkErase_congr (h : e.Alike e') (function a n : ℕ) :
    e'.checkErase function a n = e.checkErase function a n := by
  unfold checkErase inside
  rw [h.config, h.size]

theorem checkWrite_inside {a n : ℕ} (h : a + n ≤ e.memory.size) :
    e.checkWrite a n = access e.config a n := by
  unfold checkWrite inside
  rw [if_pos h]
  rfl

/-- An erase has to be one of a block of the function, and is then checked like a write. -/
theorem checkErase_eq (function a n : ℕ) : e.checkErase function a n =
    (eraseFunction e.config function).bind fun f =>
      if n = 0 ∨ f.blockSizeAt? a ≠ some n ∨ a % n ≠ 0 then .error .misaligned
      else e.checkWrite a n := by
  unfold checkErase
  cases eraseFunction e.config function with
  | error err => rfl
  | ok f =>
    show (if n = 0 ∨ f.blockSizeAt? a ≠ some n ∨ a % n ≠ 0 then _ else _) = _
    rfl

/-! ## Single operations -/

/-- A reliable chip carries out an operation on the block as asked. -/
theorem CarriedOut.shows {o : Operation} {e'' : Emulator} {a : ℕ} (hc : Reliable e.config)
    (hs : e.Shows b part e') (hfit : a + data.size ≤ b.size)
    (h : e'.CarriedOut e'' ⟨b.start + a, w.len⟩ data o) :
    e.Shows b (Image.overlay part a data) e'' := by
  have hmemory := h.memory
  have hbusy := h.stuckBusy
  rw [hs.config, hc.stuckBits, hs.memory] at hmemory
  rw [hs.config, hc.stuckBusyAt, hs.ready] at hbusy
  refine ⟨h.config.trans hs.config, hbusy, Image.size_overlay.trans hs.size, hmemory.trans ?_⟩
  rw [Image.overlay_overlay (hs.size.symm ▸ hfit)]
  rfl

/-- An erase of the block is refused, or the block is erased. -/
theorem ask_erase (hc : Reliable e.config) (hs : e.Shows b part s.device) :
    Ends (Device.ask (device.erase b.function b.start b.size)) s fun r s' => match r with
      | .ok _ => e.Shows b (Image.blank b.size e.config.chip.erasedValue) s'.device
      | .error err => e.Shows b part s'.device ∧ e.Refuses b err := by
  have hcheck := checkErase_congr hs.alike b.function b.start b.size
  refine ends_ask ?_
  cases h : e.checkErase b.function b.start b.size with
  | error err =>
    have hop : device.erase b.function b.start b.size s.device = .quiet (.error err) s.device :=
      erase_refused (hcheck.trans h)
    rw [hop]
    exact ⟨hs, .inl h⟩
  | ok _ =>
    obtain ⟨hcarried, hresult⟩ := erase_carriedOut (hcheck.trans h)
    have hcells : (Image.blank b.size s.device.config.chip.erasedValue).size = b.size :=
      Image.size_blank
    have hshows := hcarried.shows (w := b.span) (a := 0) hc hs (by rw [hcells, Nat.zero_add])
    rw [Image.overlay_all (hcells.trans hs.size.symm), hs.config] at hshows
    have hop : (device.erase b.function b.start b.size s.device).result = .ok () := by
      refine hresult.trans (if_neg ?_)
      rintro (hbusy | hpolls)
      · rw [hshows.ready] at hbusy
        cases hbusy
      · have hlt := hc.polls
        rw [hs.config] at hpolls
        exact absurd (Nat.le_trans (by decide) hpolls) (Nat.not_le.2 hlt)
    rw [hop]
    exact hshows

/-- A write inside the block is refused, or it stores data that can be programmed. -/
theorem ask_write (hc : Reliable e.config) (hs : e.Shows b part s.device)
    (hb : b.start + b.size ≤ e.memory.size) (hlen : data.size = w.len)
    (hw : w.start + w.len ≤ b.size)
    (hprogram : programmed e.config.chip (Image.slice part w) data = data) :
    Ends (Device.ask (device.write (b.start + w.start) data)) s fun r s' => match r with
      | .ok _ => e.Shows b (Image.overlay part w.start data) s'.device ∧
          access e.config (b.start + w.start) w.len = .ok ()
      | .error err => e.Shows b part s'.device ∧ e.Refuses b err := by
  have hcheck : s.device.checkWrite (b.start + w.start) data.size =
      access e.config (b.start + w.start) w.len := by
    rw [checkWrite_inside (by rw [hs.alike.size]; omega), hs.config, hlen]
  refine ends_ask ?_
  cases h : access e.config (b.start + w.start) w.len with
  | error err =>
    have hop : device.write (b.start + w.start) data s.device = .quiet (.error err) s.device :=
      write_refused (hcheck.trans h)
    rw [hop]
    exact ⟨hs, .inr ⟨w, hw, h⟩⟩
  | ok _ =>
    obtain ⟨hcarried, hresult⟩ := write_carriedOut (hcheck.trans h)
    -- the chip programs over the cells that it holds, which are those of the copy
    rw [hlen, hs.slice hb hw, hs.config, hprogram] at hcarried
    have hshows := hcarried.shows hc hs (by rwa [hlen])
    have hop : (device.write (b.start + w.start) data s.device).result = .ok () := by
      refine hresult.trans (if_neg ?_)
      rintro (hbusy | hpolls)
      · rw [hshows.ready] at hbusy
        cases hbusy
      · have hlt := hc.polls
        rw [hs.config] at hpolls
        exact absurd hpolls (Nat.not_le.2 hlt)
    rw [hop]
    exact ⟨hshows, rfl⟩

/-- **The check of an erase** passes exactly if the span is erased, and is never denied. -/
theorem checkErased_ends {t : Span} (erased : UInt8) (ht : t.stop ≤ e.memory.size)
    (h : e.Untouched s.device) :
    Ends (checkErased device t erased) s fun r s' => e.Untouched s'.device ∧
      (r = .ok () ↔ Image.slice e.memory t = Image.blank t.len erased) ∧
      ∀ err, r = .error err → err.isAccessDenied = false := by
  obtain ⟨bytes, hresult, hbytes⟩ := read_inside (h.memory.symm ▸ ht)
  have hask : Ends (Device.ask (device.read t.start t.len)) s fun r s' =>
      r = .ok bytes ∧ e.Untouched s'.device :=
    ends_ask ⟨hresult, h.trans (read_untouched _ _ _)⟩
  -- the search fails exactly if no byte is another one
  have hfind : (Span.mk 0 t.len).find? (fun i => Image.byte bytes.toArray i != erased) = none ↔
      Image.slice e.memory t = Image.blank t.len erased := by
    rw [Span.find?_eq_none_iff, hbytes, h.memory]
    constructor
    · intro hall
      refine Image.ext_byte ((Image.size_slice ht).trans Image.size_blank.symm) fun i hi => ?_
      have hi : i < t.len := by rwa [Image.size_slice ht] at hi
      rw [Image.byte_blank hi, ← bne_eq_false_iff_eq]
      exact hall i ⟨Nat.zero_le _, (Nat.zero_add t.len).symm ▸ hi⟩
    · rintro hblank i ⟨-, hi⟩
      have hi : i < t.len := by rwa [Nat.zero_add] at hi
      rw [hblank, Image.byte_blank hi]
      exact bne_self_eq_false erased
  unfold checkErased
  refine hask.andThen ?_ ?_
  · rintro _ s₁ ⟨⟨⟩, h₁⟩
    dsimp only
    split
    · rename_i hnone
      exact ends_pure ⟨h₁, iff_of_true rfl (hfind.1 hnone), fun err herr => by cases herr⟩
    · rename_i i hsome
      refine Ends.noteThen (ends_throw ⟨h₁, ?_, ?_⟩)
      · rw [← hfind, hsome]
        exact iff_of_false (fun hok => by cases hok) (Option.some_ne_none i)
      · rintro _ ⟨⟩
        rfl
  · rintro _ s₁ ⟨⟨⟩, -⟩

/-- A span that is erased passes the check for that. -/
theorem checkErased_passes {t : Span} {erased : UInt8} (ht : t.stop ≤ e.memory.size)
    (hblank : Image.slice e.memory t = Image.blank t.len erased) (h : e.Untouched s.device) :
    Ends (checkErased device t erased) s fun r s' => r = .ok () ∧ e.Untouched s'.device :=
  (checkErased_ends erased ht h).mono fun _ _ ⟨h', hok, _⟩ => ⟨hok.2 hblank, h'⟩

/-- A block that is erased passes the check for that. -/
theorem checkErased_shows {erased : UInt8} (hb : b.start + b.size ≤ e.memory.size)
    (hs : e.Shows b (Image.blank b.size erased) s.device) :
    Ends (checkErased device b.span erased) s fun r s' =>
      r = .ok () ∧ e.Shows b (Image.blank b.size erased) s'.device := by
  have hle : b.span.stop ≤ s.device.memory.size := by rwa [hs.alike.size]
  have hblank : Image.slice s.device.memory b.span = Image.blank b.size erased := by
    have hall : 0 + b.size ≤ b.size := (Nat.zero_add _).le
    exact (hs.slice (w := ⟨0, b.size⟩) hb hall).trans (Image.slice_blank hall)
  refine (checkErased_passes hle hblank (Untouched.refl _)).mono ?_
  rintro r s' ⟨hr, h'⟩
  exact ⟨hr, hs.untouched h'⟩

/-- What was written passes verification. -/
theorem verifyRange_shows (chip : Chip) (policy : Policy) (hb : b.start + b.size ≤ e.memory.size)
    (hs : e.Shows b part s.device) (hlen : data.size = w.len) (hw : w.start + w.len ≤ b.size)
    (hdata : Image.slice part w = data)
    (hopen : access e.config (b.start + w.start) w.len = .ok ()) :
    Ends (verifyRange device chip data (b.start + w.start) policy) s fun r s' =>
      r = .ok () ∧ e.Shows b part s'.device := by
  have hle : b.start + w.start + data.size ≤ s.device.memory.size := by
    rw [hs.alike.size]
    omega
  have hopen : access s.device.config (b.start + w.start) data.size = .ok () := by
    rwa [hs.config, hlen]
  refine (verifyRange_granted chip policy hopen hle (Untouched.refl _)).mono ?_
  rintro r s' ⟨h', hr⟩
  refine ⟨hr.2 ?_, hs.untouched h'⟩
  rw [hlen, hs.slice hb hw, hdata]

/-! ## One block -/

/-- The copy is what the chip holds of the block. -/
def InSync (e : Emulator) (b : Block) (ex : Execution Emulator) : Prop :=
  e.Shows b ex.current ex.session.device

/-- If the copy of the contents is the memory, the copy of a block is what the chip holds of it. -/
theorem Holds.inSync (h : e.Holds ex.current ex.session.device)
    (hb : b.start + b.size ≤ ex.current.size) : ex.session.device.InSync b (ex.enter b) := by
  have hshows := Shows.refl (b := b) h.ready (h.memory.symm ▸ hb)
  rwa [h.memory] at hshows

/-- Outside the blocks in `past`, the chip and the copy hold what the chip `e` held. -/
def Fresh (e : Emulator) (past : List Block) (dev : Emulator) (current : Image) : Prop :=
  ∀ a, (∀ b ∈ past, a ∉ b.span) →
    dev.memory.byte a = e.memory.byte a ∧ current.byte a = e.memory.byte a

/-- A block apart from those is what it was, on the chip and in the copy. -/
theorem Fresh.agree {past : List Block} {dev : Emulator} {current : Image}
    (h : e.Fresh past dev current) (hdis : ∀ c ∈ past, ∀ a ∈ c.span, a ∉ b.span) :
    Image.Agree b.span dev.memory e.memory ∧ Image.Agree b.span current e.memory :=
  ⟨fun a ha => (h a fun c hc hac => hdis c hc a hac ha).1,
    fun a ha => (h a fun c hc hac => hdis c hc a hac ha).2⟩

/-- One more block is changed, and its copy is put back. -/
theorem Fresh.next {past : List Block} {dev dev' : Emulator} {current part : Image}
    (h : e.Fresh past dev current) (hpart : part.size = b.size)
    (houtside : ∀ a, a ∉ b.span → dev'.memory.byte a = dev.memory.byte a) :
    e.Fresh (past ++ [b]) dev' (Image.overlay current b.start part) := by
  intro a ha
  have hab : a ∉ b.span := ha b (by simp)
  obtain ⟨hmemory, hcurrent⟩ := h a fun c hc => ha c (List.mem_append_left _ hc)
  refine ⟨(houtside a hab).trans hmemory, Eq.trans ?_ hcurrent⟩
  exact Image.byte_overlay_outside (by rw [hpart]; exact hab)

/-- **An erase of the block** leaves it erased, or as it was, whatever it is taken to hold. -/
theorem eraseBlock_clears (hc : Reliable e.config) (hchip : e.config.chip = chip)
    (hb : b.start + b.size ≤ e.memory.size) (hs : e.Shows b part ex.session.device)
    (hsize : ex.current.size = b.size) :
    Ends (eraseBlock device chip policy b) ex fun r ex' => match r with
      | .ok _ => e.Shows b (Image.blank b.size chip.erasedValue) ex'.session.device ∧
          ex'.current = Image.blank b.size chip.erasedValue
      | .error err => e.Shows b part ex'.session.device ∧ ex'.current = ex.current ∧
          e.Refuses b err.cause := by
  subst hchip
  refine eraseBlock_ends
    (R := fun s => e.Shows b (Image.blank b.size e.config.chip.erasedValue) s.device) ?_ ?_ ?_
  · refine (ask_erase hc hs).mono fun r s h => ?_
    cases r with
    | ok _ => exact h
    | error err => exact ⟨h.1, rfl, h.2⟩
  · intro _ s h
    refine (checkErased_shows hb h).mono ?_
    rintro _ s' ⟨rfl, h'⟩
    exact h'
  · intro s h
    rw [hsize]
    exact ⟨h, rfl⟩

/-- If the copy was in sync, it still is. -/
theorem eraseBlock_shows (hc : Reliable e.config) (hchip : e.config.chip = chip)
    (hb : b.start + b.size ≤ e.memory.size) (hs : e.InSync b ex) :
    Ends (eraseBlock device chip policy b) ex fun r ex' => e.InSync b ex' ∧ match r with
      | .ok _ => ex'.current = Image.blank b.size chip.erasedValue
      | .error err => e.Refuses b err.cause := by
  refine (eraseBlock_clears hc hchip hb hs hs.size).mono fun r ex' h => ?_
  unfold InSync
  cases r with
  | ok _ => exact ⟨h.2.symm ▸ h.1, h.2⟩
  | error err => exact ⟨h.2.1.symm ▸ h.1, h.2.2⟩

/-- **A write of a window** that can be programmed stores it, or is refused, whatever the block is
taken to hold. -/
theorem writeWindow_stores (hc : Reliable e.config) (hchip : e.config.chip = chip)
    (hb : b.start + b.size ≤ e.memory.size) (hs : e.Shows b part ex.session.device)
    (hw : w.start + w.len ≤ b.size) (hwant : want.size = b.size)
    (hprogram : programmed chip (Image.slice part w) (Image.slice want w) = Image.slice want w)
    (erased : Bool) :
    Ends (writeWindow device chip policy b want erased w) ex fun r ex' => match r with
      | .ok _ => e.Shows b (Image.overlay part w.start (Image.slice want w)) ex'.session.device ∧
          ex'.current = Image.overlay ex.current w.start (Image.slice want w)
      | .error err => e.Shows b part ex'.session.device ∧ ex'.current = ex.current ∧
          e.Refuses b err.cause := by
  subst hchip
  have hlen : (Image.slice want w).size = w.len := Image.size_slice (hwant.symm ▸ hw)
  have hslice : Image.slice (Image.overlay part w.start (Image.slice want w)) w =
      Image.slice want w := by
    have := Image.slice_overlay (m := part) (a := w.start) (x := Image.slice want w)
      (by rw [hlen, hs.size]; exact hw)
    rwa [hlen] at this
  refine writeWindow_ends (R := fun s =>
    e.Shows b (Image.overlay part w.start (Image.slice want w)) s.device ∧
      access e.config (b.start + w.start) w.len = .ok ()) ?_ ?_ ?_
  · refine (ask_write hc hs hb hlen hw hprogram).mono fun r s h => ?_
    cases r with
    | ok _ => exact h
    | error err => exact ⟨h.1, rfl, h.2⟩
  · rintro _ s ⟨h, hopen⟩
    refine (verifyRange_shows _ policy hb h hlen hw hslice hopen).mono ?_
    rintro _ s' ⟨rfl, h'⟩
    exact ⟨h', hopen⟩
  · exact fun s h => ⟨h.1, rfl⟩

/-- If the copy was in sync, it still is. -/
theorem writeWindow_shows (hc : Reliable e.config) (hchip : e.config.chip = chip)
    (hb : b.start + b.size ≤ e.memory.size) (hs : e.InSync b ex) (hw : w.start + w.len ≤ b.size)
    (hwant : want.size = b.size)
    (hprogram : programmed chip (Image.slice ex.current w) (Image.slice want w) =
      Image.slice want w) (erased : Bool) :
    Ends (writeWindow device chip policy b want erased w) ex fun r ex' => e.InSync b ex' ∧
      match r with
      | .ok _ => ex'.current = Image.overlay ex.current w.start (Image.slice want w)
      | .error err => e.Refuses b err.cause := by
  refine (writeWindow_stores hc hchip hb hs hw hwant hprogram erased).mono fun r ex' h => ?_
  unfold InSync
  cases r with
  | ok _ => exact ⟨h.2.symm ▸ h.1, h.2⟩
  | error err => exact ⟨h.2.1.symm ▸ h.1, h.2.2⟩

/-- **The writes of a block** make it what it should be, or one of them is refused. -/
theorem writeWindows_shows (hc : Reliable e.config) (hchip : e.config.chip = chip)
    (hb : b.start + b.size ≤ e.memory.size) (hwant : want.size = b.size) (erased : Bool)
    {n offset : ℕ} (hn : want.size ≤ offset + n) (hs : e.InSync b ex)
    (hpending : Pending chip ex.current want offset) :
    Ends (writeWindows device chip policy b want erased n offset) ex fun r ex' =>
      e.InSync b ex' ∧ match r with
        | .ok _ => ex'.current = want
        | .error err => e.Refuses b err.cause := by
  refine (writeWindows_ends
    (J := fun offset ex => e.InSync b ex ∧ Pending chip ex.current want offset)
    (Q := fun r ex => e.InSync b ex ∧ match r with
      | .ok _ => ex.current = want
      | .error err => e.Refuses b err.cause)
    (fun offset ex h hend => ⟨h.1, h.2.eq hend⟩) ?_ hn ⟨hs, hpending⟩).mono ?_
  · rintro offset w ex ⟨hs, hpending⟩ hw
    have hstop := (nextWindow?_bounds hw).2.2
    unfold Span.stop at hstop
    refine (writeWindow_shows hc hchip hb hs (by omega) hwant (hpending.programmed hw)
      erased).mono ?_
    rintro (err | _) ex₁ ⟨h₁, hr⟩
    · exact ⟨h₁, hr⟩
    · dsimp only at hr
      refine ⟨h₁, ?_⟩
      rw [hr]
      exact hpending.next hw
  · rintro (err | _) ex₁ h₁
    · exact h₁
    · exact h₁

/-- **One block** is turned into what it should hold, or a command of it is refused. Either way the
copy is what the chip holds of it. -/
theorem processBlock_shows (hc : Reliable e.config) (hchip : e.config.chip = chip)
    (hbits : chip.BitsErased) (hb : b.start + b.size ≤ e.memory.size) (hwant : want.size = b.size)
    (hs : e.InSync b ex) :
    Ends (processBlock device chip policy b want) ex fun r ex' => e.InSync b ex' ∧ match r with
      | .ok _ => ex'.current = want
      | .error err => e.Refuses b err.cause := by
  -- with or without an erase, what the block holds then can be programmed
  refine processBlock_ends (P := fun _ ex' => e.InSync b ex' ∧ Pending chip ex'.current want 0)
    (fun _ => ?_) (fun hkeep => ?_) ?_
  · refine (eraseBlock_shows hc hchip hb hs).mono ?_
    rintro (err | _) ex' ⟨h', hcurrent⟩
    · exact ⟨h', hcurrent⟩
    · refine ⟨h', ?_⟩
      rw [hcurrent, ← hwant]
      exact pending_blank chip want
  · exact ⟨hs, pending_keep hbits (hs.size.trans hwant.symm) hkeep⟩
  · rintro erased ex' ⟨h', hpending⟩
    refine (writeWindows_shows hc hchip hb hwant erased (Nat.zero_add _).ge h' hpending).mono ?_
    rintro (err | _) ex'' ⟨h'', hr⟩
    · exact ⟨h'', hr⟩
    · exact ⟨h'', hr⟩

end Reflash.Emulator
