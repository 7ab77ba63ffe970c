import Reflash.Proofs.Emulator.Effects
import Reflash.Proofs.Execution.Commands

/-!
# What becomes of a block

What a block needs can be said before it is processed (`Block.commands`): an erase if
one is needed, and then a write of every window that differs. On a chip without stuck
bits, processing the block carries out these commands up to the end or up to one that
fails (`Runs`), and what the memory holds after some of them is known byte by byte.

* `processBlock_runs`: one block, whatever is protected, refused or late.
* `byte_commands`: after some of the commands, every byte is old, new or erased.
* `slice_commands`: after all of them, the block is what it should be.
-/

namespace Reflash

/-- The write of what a block should hold in a part of it. -/
def Block.writing (b : Block) (want : Image) (w : Span) : Command :=
  .write (b.start + w.start) (Image.slice want w)

/-- What a block that holds `cur` needs so that it holds `want`: an erase if one is needed, and the
writes of the windows that differ then. -/
def Block.commands (b : Block) (chip : Chip) (cur want : Image) : List Command :=
  if needErase cur want chip.granularity chip.erasedValue then
    b.command :: (windows (Image.blank cur.size chip.erasedValue) want chip.granularity).map
      (b.writing want)
  else (windows cur want chip.granularity).map (b.writing want)

namespace Emulator

variable {chip : Chip} {policy : Policy} {b : Block} {cur want new m : Image} {w : Span} {n offset : ℕ}
  {pre : List Command} {c : Command} {e e' : Emulator} {s : Session Emulator}
  {ex : Execution Emulator}

/-! ## What the commands make of the block -/

theorem span_writing (hw : w.start + w.len ≤ want.size) :
    (b.writing want w).span = ⟨b.start + w.start, w.len⟩ := by
  rw [Block.writing, Command.span, Image.size_slice hw]

/-- The erase leaves the block erased. -/
theorem slice_erased (hb : b.start + b.size ≤ m.size) :
    Image.slice (b.command.apply chip m) b.span = Image.blank b.size chip.erasedValue := by
  have hsize : (Image.blank b.size chip.erasedValue).size = b.size := Image.size_blank
  have hslice := Image.slice_overlay (m := m) (a := b.start)
    (x := Image.blank b.size chip.erasedValue) (by rwa [hsize])
  rwa [hsize] at hslice

/-- The write of a window that can be programmed changes the block like a copy of it. -/
theorem slice_written (hb : b.start + b.size ≤ m.size) (hcur : Image.slice m b.span = cur)
    (hw : w.start + w.len ≤ b.size) (hwant : want.size = b.size)
    (hprogram : programmed chip (Image.slice cur w) (Image.slice want w) = Image.slice want w) :
    Image.slice ((b.writing want w).apply chip m) b.span =
      Image.overlay cur w.start (Image.slice want w) := by
  have hlen : (Image.slice want w).size = w.len := Image.size_slice (hwant.symm ▸ hw)
  have hsize : cur.size = b.size := by
    rw [← hcur]
    exact Image.size_slice hb
  have hcells : Image.slice m ⟨b.start + w.start, (Image.slice want w).size⟩ =
      Image.slice cur w := by
    rw [hlen, ← hcur]
    exact (Image.slice_slice hw).symm
  -- the memory with the copy of the block put back is the memory
  have hback : Image.overlay m b.start cur = m := by
    rw [← hcur]
    exact Image.overlay_slice m b.span
  have hwhole : (b.writing want w).apply chip m =
      Image.overlay m b.start (Image.overlay cur w.start (Image.slice want w)) := by
    rw [Image.overlay_overlay (by rw [hlen, hsize]; exact hw), hback]
    rw [Block.writing, Command.apply, hcells, hprogram]
  have hpart : (Image.overlay cur w.start (Image.slice want w)).size = b.size :=
    Image.size_overlay.trans hsize
  have hslice := Image.slice_overlay (m := m) (a := b.start)
    (x := Image.overlay cur w.start (Image.slice want w)) (by rwa [hpart])
  rw [hpart] at hslice
  rw [hwhole]
  exact hslice

/-- **The writes of a block**: some of them leave it partway from what it held to what it should
hold, all of them make it what it should be. -/
theorem applyAll_writing (hb : b.start + b.size ≤ m.size) (hwant : want.size = b.size)
    (hcur : Image.slice m b.span = cur) (hpending : Pending chip cur want offset) :
    (∀ pre, pre <+: (windowsFrom cur want chip.granularity n offset).map (b.writing want) →
      Partway chip cur want offset (Image.slice (Command.applyAll chip pre m) b.span)) ∧
    (want.size ≤ offset + n → Image.slice (Command.applyAll chip
      ((windowsFrom cur want chip.granularity n offset).map (b.writing want)) m) b.span = want) := by
  induction n generalizing m cur offset with
  | zero =>
    refine ⟨fun pre hpre => ?_, fun hn => hcur.trans (hpending.eq (.inr hn))⟩
    rw [List.prefix_nil.1 hpre]
    exact hcur.symm ▸ hpending.partway
  | succ n ih =>
    unfold windowsFrom
    cases hw : nextWindow? cur want chip.granularity offset with
    | none =>
      refine ⟨fun pre hpre => ?_, fun _ => hcur.trans (hpending.eq (.inl hw))⟩
      rw [List.prefix_nil.1 hpre]
      exact hcur.symm ▸ hpending.partway
    | some w =>
      obtain ⟨hstart, hlen, hstop⟩ := nextWindow?_bounds hw
      have hnext : offset < w.stop := by unfold Span.stop; omega
      have hin : w.stop ≤ want.size := hstop.trans (Nat.min_le_right _ _)
      have hdata : (Image.slice want w).size = w.len := Image.size_slice hin
      -- after the first write, what remains to be written is the same
      have hslice := slice_written hb hcur (hwant ▸ hin) hwant (hpending.programmed hw)
      have hrest := windowsFrom_overlay (g := chip.granularity) hstop hdata n
      have hsize' : b.start + b.size ≤ ((b.writing want w).apply chip m).size := by
        rwa [Command.size_apply]
      obtain ⟨hpart, hall⟩ := ih hsize' hslice (hpending.next hw)
      rw [hrest] at hpart hall
      dsimp only
      rw [List.map_cons]
      refine ⟨fun pre hpre => ?_, fun hn => hall (by omega)⟩
      rcases List.prefix_cons_iff.1 hpre with rfl | ⟨pre', rfl, hpre'⟩
      · exact hcur.symm ▸ hpending.partway
      · exact (hpart pre' hpre').back hnext.le hin

/-- The writes of a block do not leave it as it was, however many of them there are. -/
theorem exists_byte_changed (hb : b.start + b.size ≤ m.size) (hwant : want.size = b.size)
    (hcur : Image.slice m b.span = cur) (hpending : Pending chip cur want offset)
    (hpre : c :: pre <+: (windowsFrom cur want chip.granularity n offset).map (b.writing want)) :
    ∃ i < b.size,
      (Image.slice (Command.applyAll chip (c :: pre) m) b.span).byte i ≠ cur.byte i := by
  cases n with
  | zero => cases List.prefix_nil.1 hpre
  | succ n =>
    unfold windowsFrom at hpre
    cases hw : nextWindow? cur want chip.granularity offset with
    | none =>
      rw [hw] at hpre
      cases List.prefix_nil.1 hpre
    | some w =>
      rw [hw] at hpre
      dsimp only at hpre
      rw [List.map_cons, List.cons_prefix_cons] at hpre
      obtain ⟨rfl, hrest⟩ := hpre
      obtain ⟨-, -, hstop⟩ := nextWindow?_bounds hw
      have hsize := hpending.size
      have hin : w.start + w.len ≤ b.size := hwant ▸ hstop.trans (Nat.min_le_right _ _)
      have hdata : (Image.slice want w).size = w.len := Image.size_slice (hwant.symm ▸ hin)
      -- a byte of the first window that differs is as wanted after its write
      obtain ⟨i, ⟨h1, h2⟩, hne⟩ := nextWindow?_differs hw
      have hdone : (Image.overlay cur w.start (Image.slice want w)).byte i = want.byte i := by
        rw [Image.byte_overlay (by omega), hdata, if_pos ⟨h1, h2⟩, Image.byte_slice (by omega),
          Nat.add_sub_cancel' h1]
      have hslice := slice_written hb hcur hin hwant (hpending.programmed hw)
      rw [← windowsFrom_overlay hstop hdata] at hrest
      have hmix := ((applyAll_writing (by rwa [Command.size_apply]) hwant hslice
        (hpending.next hw)).1 pre hrest).byte (i := i) (by omega)
      rw [hdone, or_self] at hmix
      refine ⟨i, by omega, fun hkept => hne ?_⟩
      rw [← hkept]
      exact hmix

/-- **Some of the commands** leave every byte of the block as it was, as it should be, or erased. The
last is possible only after the erase. -/
theorem byte_commands (hbits : chip.BitsErased) (hb : b.start + b.size ≤ m.size)
    (hnew : b.start + b.size ≤ new.size)
    (hpre : pre <+: b.commands chip (Image.slice m b.span) (Image.slice new b.span)) {a : ℕ}
    (ha : a ∈ b.span) :
    (Command.applyAll chip pre m).byte a = m.byte a ∨
      (Command.applyAll chip pre m).byte a = new.byte a ∨
      b.command ∈ pre ∧ (Command.applyAll chip pre m).byte a = chip.erasedValue := by
  obtain ⟨i, rfl⟩ := Nat.exists_eq_add_of_le ha.1
  have hi : i < b.size := by
    have hlt := ha.2
    simp only [Block.span] at hlt
    omega
  have hwant : (Image.slice new b.span).size = b.size := Image.size_slice hnew
  have hcur : (Image.slice m b.span).size = b.size := Image.size_slice hb
  have hbyte : ∀ x : Image, (Image.slice x b.span).byte i = x.byte (b.span.start + i) :=
    fun x => Image.byte_slice hi
  unfold Block.commands at hpre
  split at hpre
  · rcases List.prefix_cons_iff.1 hpre with rfl | ⟨pre', rfl, hpre'⟩
    · exact .inl rfl
    · -- the writes start from an erased block
      have hpending := pending_blank chip (Image.slice new b.span)
      rw [hwant, ← hcur] at hpending
      have hslice := @slice_erased chip b m hb
      rw [← hcur] at hslice
      have hmix := ((applyAll_writing (by rwa [Command.size_apply]) hwant hslice hpending).1 pre'
        hpre').byte (hwant.symm ▸ hi)
      rw [hbyte, hbyte, Image.byte_blank (hcur.symm ▸ hi)] at hmix
      rcases hmix with herased | hdone
      · exact .inr (.inr ⟨List.mem_cons_self, herased⟩)
      · exact .inr (.inl hdone)
  · rename_i hkeep
    have hpending := pending_keep hbits (hcur.trans hwant.symm) (Bool.eq_false_iff.2 hkeep)
    have hmix := ((applyAll_writing hb hwant rfl hpending).1 pre hpre).byte (hwant.symm ▸ hi)
    rw [hbyte, hbyte, hbyte] at hmix
    rcases hmix with hold | hdone
    · exact .inl hold
    · exact .inr (.inl hdone)

/-- **All of the commands** make the block what it should be. -/
theorem agree_commands (hbits : chip.BitsErased) (hb : b.start + b.size ≤ m.size)
    (hnew : b.start + b.size ≤ new.size) :
    Image.Agree b.span (Command.applyAll chip
      (b.commands chip (Image.slice m b.span) (Image.slice new b.span)) m) new := by
  have hwant : (Image.slice new b.span).size = b.size := Image.size_slice hnew
  have hcur : (Image.slice m b.span).size = b.size := Image.size_slice hb
  rw [Image.agree_iff_slice (s := b.span) (by rwa [Command.size_applyAll]) hnew]
  unfold Block.commands
  split
  · have hpending := pending_blank chip (Image.slice new b.span)
    rw [hwant, ← hcur] at hpending
    have hslice := @slice_erased chip b m hb
    rw [← hcur] at hslice
    exact (applyAll_writing (by rwa [Command.size_apply]) hwant hslice hpending).2
      (Nat.zero_add _).ge
  · rename_i hkeep
    have hpending := pending_keep hbits (hcur.trans hwant.symm) (Bool.eq_false_iff.2 hkeep)
    exact (applyAll_writing hb hwant rfl hpending).2 (Nat.zero_add _).ge

/-- The commands are the erase and writes of windows. -/
theorem mem_commands (hc : c ∈ b.commands chip cur want) :
    c = b.command ∨ ∃ w, w.start + w.len ≤ want.size ∧ c = b.writing want w := by
  have hwriting : ∀ x : Image, c ∈ (windows x want chip.granularity).map (b.writing want) →
      ∃ w, w.start + w.len ≤ want.size ∧ c = b.writing want w := by
    intro x hc
    obtain ⟨w, hw, rfl⟩ := List.mem_map.1 hc
    obtain ⟨-, -, hstop⟩ := windowsFrom_bounds hw
    exact ⟨w, hstop.trans (Nat.min_le_right _ _), rfl⟩
  unfold Block.commands at hc
  split at hc
  · rcases List.mem_cons.1 hc with rfl | hc
    · exact .inl rfl
    · exact .inr (hwriting _ hc)
  · exact .inr (hwriting _ hc)

/-- The commands stay inside the block. -/
theorem commands_within (hwant : want.size = b.size) (hc : c ∈ b.commands chip cur want) :
    c.span.Within b.span := by
  rcases mem_commands hc with rfl | ⟨w, hw, rfl⟩
  · exact fun _ ha => ha
  · rw [span_writing hw]
    intro a ha
    rw [Span.mem_def] at ha ⊢
    simp only [Block.span] at ha ⊢
    omega

/-! ## What an execution makes of the block -/

/-- After `pre`, the command `c` failed. Either the chip refused it or was late, or it took effect but
reads back as something else, which needs bits that are programmed away from another value than
0xFF. -/
inductive Stops (policy : Policy) (e : Emulator) (pre : List Command) (c : Command)
    (cause : FlashError) (e' : Emulator) : Prop
  | failed (dev : Emulator) (hpre : e.Underwent pre dev)
      (hresult : (device.perform c dev).result = .error cause)
      (hdevice : (device.perform c dev).device = e')
  | unverified (hpre : e.Underwent (pre ++ [c]) e') (hkept : policy.ignores cause = false)
      (hbits : ¬e.config.chip.BitsErased)

/-- Whatever stopped them, some of the commands took effect, at least those before the one that
failed. -/
theorem Stops.initial {cause : FlashError} (hstuck : e.config.stuckBits = [])
    (h : e.Stops policy pre c cause e') : e.Underwent pre e' ∨ e.Underwent (pre ++ [c]) e' := by
  cases h with
  | failed mid hpre hresult hdevice =>
    -- the command that failed was refused, or it took effect and the chip was late
    cases hcheck : mid.check c with
    | error cause =>
      rw [perform_refused hcheck] at hdevice
      exact .inl (hdevice ▸ hpre)
    | ok _ =>
      have hmid : mid.config.stuckBits = [] := by rw [hpre.config, hstuck]
      have hunder := hpre.trans (perform_accepted hmid hcheck).1
      exact .inr (hdevice ▸ hunder)
  | unverified hpre _ _ => exact .inr hpre

/-- From `e` to `e'`, the commands were carried out up to the end, or up to one that failed. -/
def Runs {α : Type} (policy : Policy) (e : Emulator) (cs : List Command) :
    Except ExecutionError α → Emulator → Prop
  | .ok _, e' => e.Underwent cs e'
  | .error err, e' => ∃ pre c post, cs = pre ++ c :: post ∧ err = c.failure err.cause ∧
      e.Stops policy pre c err.cause e'

/-- A command that is given after others. -/
theorem ask_perform (policy : Policy) (c : Command) (hstuck : e.config.stuckBits = [])
    (hpre : e.Underwent pre s.device) :
    Ends (Device.ask (device.perform c)) s fun r s' => match r with
      | .ok _ => e.Underwent (pre ++ [c]) s'.device
      | .error cause => e.Stops policy pre c cause s'.device := by
  refine ends_ask ?_
  cases hresult : (device.perform c s.device).result with
  | error cause => exact .failed s.device hpre hresult rfl
  | ok _ =>
    cases hcheck : s.device.check c with
    | error err =>
      rw [perform_refused hcheck] at hresult
      cases hresult
    | ok _ =>
      have hstuck : s.device.config.stuckBits = [] := by rw [hpre.config, hstuck]
      exact hpre.trans (perform_accepted hstuck hcheck).1

/-- **The erase of a block** is carried out or fails, whether it is checked or not. -/
theorem eraseBlock_runs (hstuck : e.config.stuckBits = [])
    (hchip : e.config.chip = chip) (hb : b.start + b.size ≤ e.memory.size)
    (hdev : ex.session.device = e) (hsize : ex.current.size = b.size) :
    Ends (eraseBlock device chip policy b) ex fun r ex' => match r with
      | .ok _ => e.Underwent [b.command] ex'.session.device ∧
          ex'.current = Image.blank b.size chip.erasedValue
      | .error err => err = b.command.failure err.cause ∧
          e.Stops policy [] b.command err.cause ex'.session.device := by
  subst hchip
  have hstart : e.Underwent [] ex.session.device := hdev ▸ Underwent.refl e
  refine eraseBlock_ends (R := fun s => e.Underwent [b.command] s.device) ?_ ?_ ?_
  · refine (ask_perform policy b.command hstuck hstart).mono fun r s h => ?_
    cases r with
    | ok _ => exact h
    | error err => exact ⟨rfl, h⟩
  · intro _ s h
    have hle : b.span.stop ≤ s.device.memory.size := h.alike.size.symm ▸ hb
    have hblank : Image.slice s.device.memory b.span =
        Image.blank b.size e.config.chip.erasedValue := by
      rw [h.memory]
      exact slice_erased hb
    refine (checkErased_passes hle hblank (Untouched.refl _)).mono ?_
    rintro _ s' ⟨rfl, hu⟩
    exact h.untouched hu
  · intro s h
    rw [hsize]
    exact ⟨h, rfl⟩

/-- A chip that programs what it is given holds it after the write. -/
theorem slice_target {t : Span} (hin : t.start + t.len ≤ b.size) {x : Image}
    (h : Image.slice m b.span = Image.overlay cur t.start x) (hx : x.size = t.len)
    (hcur : cur.size = b.size) : Image.slice m ⟨b.start + t.start, t.len⟩ = x := by
  have hpart : Image.slice (Image.slice m b.span) t = Image.slice m ⟨b.start + t.start, t.len⟩ :=
    Image.slice_slice hin
  have hover := Image.slice_overlay (m := cur) (a := t.start) (x := x) (by omega)
  rw [hx] at hover
  rw [← hpart, h]
  exact hover

/-- **The write of a window** is carried out or fails. If it is checked, it can fail although it took
effect, but only where it does not store what it was given. -/
theorem writeWindow_runs {erased : Bool} (hstuck : e.config.stuckBits = [])
    (hchip : e.config.chip = chip) (hb : b.start + b.size ≤ e.memory.size)
    (hwant : want.size = b.size) (hsize : ex.current.size = b.size)
    (hw : w.start + w.len ≤ b.size) (hpre : e.Underwent pre ex.session.device)
    (hsync : chip.BitsErased →
      Image.slice (Command.applyAll chip (pre ++ [b.writing want w]) e.memory) b.span =
        Image.overlay ex.current w.start (Image.slice want w)) :
    Ends (writeWindow device chip policy b want erased w) ex fun r ex' => match r with
      | .ok _ => e.Underwent (pre ++ [b.writing want w]) ex'.session.device ∧
          ex'.current = Image.overlay ex.current w.start (Image.slice want w)
      | .error err => err = (b.writing want w).failure err.cause ∧
          e.Stops policy pre (b.writing want w) err.cause ex'.session.device := by
  subst hchip
  have hlen : (Image.slice want w).size = w.len := Image.size_slice (hwant.symm ▸ hw)
  have hfailure : ∀ cause, (⟨.write, b.start + w.start, w.len, cause⟩ : ExecutionError) =
      (b.writing want w).failure cause := by
    intro cause
    rw [Block.writing, Command.failure, Command.span, hlen]
    rfl
  refine writeWindow_ends
    (R := fun s => e.Underwent (pre ++ [b.writing want w]) s.device) ?_ ?_ ?_
  · refine (ask_perform policy (b.writing want w) hstuck hpre).mono fun r s h => ?_
    cases r with
    | ok _ => exact h
    | error err => exact ⟨hfailure err, h⟩
  · intro _ s h
    -- the range was accepted for the write, so nothing of it is left out
    have haccess : access e.config (b.start + w.start) w.len = .ok () := by
      have haccepted := accepts_iff.1 (h.accepted (b.writing want w) (by simp))
      have hcheck : e.checkWrite (b.start + w.start) (Image.slice want w).size = .ok () := haccepted
      rwa [checkWrite_inside (by omega), hlen] at hcheck
    have hopen : access s.device.config (b.start + w.start) (Image.slice want w).size = .ok () := by
      rwa [h.config, hlen]
    have hle : b.start + w.start + (Image.slice want w).size ≤ s.device.memory.size := by
      rw [h.alike.size]
      omega
    have hverify := verifyRange_granted e.config.chip policy hopen hle (Untouched.refl _)
    refine (hverify.and (verifyRange_unignored device e.config.chip s)).mono ?_
    rintro r s' ⟨⟨hu, hok⟩, hkept⟩
    cases r with
    | ok _ => exact h.untouched hu
    | error err =>
      refine ⟨hfailure err, .unverified (h.untouched hu) (hkept err rfl) fun hbits => ?_⟩
      have hslice := hsync hbits
      rw [← h.memory] at hslice
      rw [hlen, slice_target hw hslice hlen hsize] at hok
      cases hok.2 rfl
  · exact fun s h => ⟨h, rfl⟩

/-- **The writes of a block** are carried out one after the other, up to the end or up to one that
fails. -/
theorem writeWindows_runs {erased : Bool} (hstuck : e.config.stuckBits = [])
    (hchip : e.config.chip = chip) (hb : b.start + b.size ≤ e.memory.size)
    (hwant : want.size = b.size) (hsize : ex.current.size = b.size)
    (hpre : e.Underwent pre ex.session.device)
    (hsync : chip.BitsErased →
      Image.slice (Command.applyAll chip pre e.memory) b.span = ex.current ∧
        Pending chip ex.current want offset) :
    Ends (writeWindows device chip policy b want erased n offset) ex fun r ex' =>
      e.Runs policy
        (pre ++ (windowsFrom ex.current want chip.granularity n offset).map (b.writing want)) r
        ex'.session.device := by
  -- by induction on how many windows there can be, with those that are written already in `pre`
  induction n generalizing ex offset pre with
  | zero =>
    refine ends_pure ?_
    rw [windowsFrom, List.map_nil, List.append_nil]
    exact hpre
  | succ n ih =>
    unfold writeWindows windowsFrom
    refine Ends.getThen ?_
    cases hw : nextWindow? ex.current want chip.granularity offset with
    | none =>
      refine ends_pure ?_
      rw [List.map_nil, List.append_nil]
      exact hpre
    | some w =>
      obtain ⟨-, -, hstop⟩ := nextWindow?_bounds hw
      have hin : w.start + w.len ≤ b.size := hwant ▸ hstop.trans (Nat.min_le_right _ _)
      have hdata : (Image.slice want w).size = w.len := Image.size_slice (hwant.symm ▸ hin)
      have hnext : chip.BitsErased →
          Image.slice (Command.applyAll chip (pre ++ [b.writing want w]) e.memory) b.span =
            Image.overlay ex.current w.start (Image.slice want w) := by
        intro hbits
        obtain ⟨hcur, hpending⟩ := hsync hbits
        rw [Command.applyAll_append]
        refine slice_written ?_ hcur hin hwant (hpending.programmed hw)
        rwa [Command.size_applyAll]
      have hrest := windowsFrom_overlay (g := chip.granularity) hstop hdata n
      refine (writeWindow_runs hstuck hchip hb hwant hsize hin hpre hnext).andThen ?_ ?_
      · rintro _ ex₁ ⟨h₁, hcurrent⟩
        dsimp only at hcurrent ⊢
        have hsize₁ : ex₁.current.size = b.size := by
          rw [hcurrent, Image.size_overlay, hsize]
        have hsync₁ : chip.BitsErased →
            Image.slice (Command.applyAll chip (pre ++ [b.writing want w]) e.memory) b.span =
              ex₁.current ∧ Pending chip ex₁.current want w.stop := by
          intro hbits
          rw [hcurrent]
          exact ⟨hnext hbits, (hsync hbits).2.next hw⟩
        have hih := ih hsize₁ h₁ hsync₁
        rw [hcurrent, hrest, List.append_assoc] at hih
        refine hih.discardThen ?_ ?_
        · exact fun _ ex₂ h₂ => ends_pure h₂
        · exact fun _ ex₂ h₂ => h₂
      · intro err ex₁ h₁
        exact ⟨pre, b.writing want w, _, rfl, h₁⟩

/-- **One block**: its commands are carried out, up to the end or up to one that fails. -/
theorem processBlock_runs (hstuck : e.config.stuckBits = []) (hchip : e.config.chip = chip)
    (hb : b.start + b.size ≤ e.memory.size) (hwant : want.size = b.size)
    (hdev : ex.session.device = e) (hcur : ex.current = Image.slice e.memory b.span) :
    Ends (processBlock device chip policy b want) ex fun r ex' =>
      e.Runs policy (b.commands chip (Image.slice e.memory b.span) want) r ex'.session.device := by
  have hsize : ex.current.size = b.size := by
    rw [hcur]
    exact Image.size_slice hb
  rw [← hcur]
  unfold Block.commands
  refine processBlock_ends (P := fun erased ex' =>
    needErase ex.current want chip.granularity chip.erasedValue = erased ∧
    if erased then e.Underwent [b.command] ex'.session.device ∧
      ex'.current = Image.blank b.size chip.erasedValue
    else ex' = ex) (fun hneed => ?_) (fun hkeep => ⟨hkeep, rfl⟩) ?_
  · rw [if_pos hneed]
    refine (eraseBlock_runs hstuck hchip hb hdev hsize).mono fun r ex' h' => ?_
    cases r with
    | ok _ => exact ⟨hneed, h'⟩
    | error err => exact ⟨[], b.command, _, rfl, h'⟩
  · rintro (_ | _) ex' ⟨hneed, h'⟩
    · rw [if_neg (Bool.eq_false_iff.1 hneed)]
      obtain rfl : ex' = ex := h'
      have hsync : chip.BitsErased → Image.slice (Command.applyAll chip [] e.memory) b.span =
          ex'.current ∧ Pending chip ex'.current want 0 := fun hbits =>
        ⟨hcur.symm, pending_keep hbits (hsize.trans hwant.symm) hneed⟩
      refine (writeWindows_runs hstuck hchip hb hwant hsize (hdev ▸ Underwent.refl e) hsync).mono ?_
      intro r ex'' h''
      cases r with
      | ok _ => exact h''
      | error err => exact h''
    · rw [if_pos hneed]
      obtain ⟨hunder, hblank⟩ := h'
      have hsize' : ex'.current.size = b.size := by
        rw [hblank]
        exact Image.size_blank
      have hsync : chip.BitsErased →
          Image.slice (Command.applyAll chip [b.command] e.memory) b.span = ex'.current ∧
            Pending chip ex'.current want 0 := by
        intro _
        rw [hblank]
        refine ⟨slice_erased hb, ?_⟩
        rw [← hwant]
        exact pending_blank chip want
      have hwrites : Ends (writeWindows device chip policy b want true want.size 0) ex' _ :=
        writeWindows_runs hstuck hchip hb hwant hsize' hunder hsync
      rw [hblank, ← hsize] at hwrites
      refine hwrites.mono ?_
      intro r ex'' h''
      cases r with
      | ok _ => exact h''
      | error err => exact h''

end Emulator

end Reflash
