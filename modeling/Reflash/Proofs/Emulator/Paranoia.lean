import Reflash.Proofs.Emulator.Blocks
import Reflash.Proofs.Emulator.Success

/-!
# Executions in paranoid mode

In paranoid mode every erase is checked, and every write into a block that was not
erased before. On a chip without protected ranges, whatever bits are stuck, a block
that passes is what it should be, with one exception: in a block that was erased, the
bits stuck at zero are zero. That only matters where zero is their erased value,
since the check of the erase finds the others.

* `ask_stores`: what an erase and a write store.
* `writeWindow_tracks`, `processBlock_tracks`: the steps of a block.
* `executePlan_paranoid`: every plan.
-/

namespace Reflash.Emulator

variable {e dev : Emulator} {s : Session Emulator} {ex : Execution Emulator} {chip : Chip}
  {policy : Policy} {b : Block} {c : Command} {new want part current : Image} {w t : Span}
  {erased : Bool} {n offset : ℕ} {err : FlashError} {past rest bs : List Block}

/-! ## Errors without protected ranges -/

theorem eraseFunction_error {config : EmulatorConfig} {i : ℕ}
    (h : eraseFunction config i = .error err) : err = .eraserNotSupported i := by
  unfold eraseFunction at h
  split at h
  · split at h
    · cases h
      rfl
    · cases h
  · cases h
    rfl

/-- Without protected ranges, no command is denied. -/
theorem check_error (hopen : e.config.protectedRanges = []) (h : e.check c = .error err) :
    err.isAccessDenied = false := by
  have hwrite : ∀ {a n : ℕ}, e.checkWrite a n = .error err → err.isAccessDenied = false := by
    intro a n h
    unfold checkWrite inside at h
    split at h
    · rw [show (do Except.ok (); access e.config a n : Except FlashError Unit) =
        access e.config a n from rfl, access_open hopen] at h
      cases h
    · cases h
      rfl
  cases c with
  | write a data => exact hwrite h
  | erase i a n =>
    have herase : e.checkErase i a n = .error err := h
    rw [checkErase_eq] at herase
    cases hf : eraseFunction e.config i with
    | error cause =>
      rw [hf] at herase
      cases herase
      rw [eraseFunction_error hf]
      rfl
    | ok f =>
      rw [hf, Except.bind] at herase
      split at herase
      · cases herase
        rfl
      · exact hwrite herase

/-- What is not denied is not ignored. -/
theorem ignores_eq_false (h : err.isAccessDenied = false) : policy.ignores err = false := by
  unfold Policy.ignores
  rw [h, Bool.false_and]

/-! ## What commands store -/

/-- What is stored where a byte is meant to be, without the bits that are stuck there. -/
def stored (e : Emulator) (a : ℕ) (b : UInt8) : UInt8 := b &&& ~~~stuckMask e.config.stuckBits a

/-- **A command that is not refused** is carried out, and the chip may be late. -/
theorem perform_carriedOut (h : e.check c = .ok ()) :
    (∃ o, e.CarriedOut (device.perform c e).device c.span (e.cells c) o) ∧
      ∀ err, (device.perform c e).result = .error err → err = .timeout := by
  obtain ⟨hcarried, hresult⟩ := perform_done h
  refine ⟨⟨_, hcarried⟩, fun err herr => ?_⟩
  rw [herr] at hresult
  split at hresult
  · cases hresult
    rfl
  · cases hresult

/-- Inside the span of an operation that is carried out, its bytes are stored. Outside nothing
changes. -/
theorem CarriedOut.byte {e' : Emulator} {x : Image} {o : Operation} (h : e.CarriedOut e' t x o)
    (hx : x.size = t.len) (ht : t.stop ≤ e.memory.size) (a : ℕ) : e'.memory.byte a =
      if a ∈ t then e.stored a (x.byte (a - t.start)) else e.memory.byte a := by
  rw [h.memory, byte_stick]
  by_cases ha : a ∈ t
  · rw [if_pos ha, if_pos ha, Image.byte_overlay (ha.2.trans_le ht), hx, if_pos (Span.mem_def.1 ha)]
    rfl
  · rw [if_neg ha, if_neg ha, Image.byte_overlay_outside (by rw [hx]; exact ha)]

/-- From `e` to `e'`, the command stored what it puts over its span. -/
structure Stores (e : Emulator) (c : Command) (e' : Emulator) : Prop where
  alike : e.Alike e'
  inside : ∀ a ∈ c.span, e'.memory.byte a = e.stored a ((e.cells c).byte (a - c.span.start))
  outside : ∀ a, a ∉ c.span → e'.memory.byte a = e.memory.byte a

theorem Stores.untouched {e₁ e₂ : Emulator} (h : e.Stores c e₁) (hu : e₁.Untouched e₂) :
    e.Stores c e₂ :=
  ⟨h.alike.trans hu.alike, fun a ha => hu.memory ▸ h.inside a ha,
    fun a ha => hu.memory ▸ h.outside a ha⟩

/-- The erase of a block stores erased bytes. -/
theorem Stores.byte_block {i : ℕ} (hs : e.Stores b.command dev) (hi : i < b.size) :
    dev.memory.byte (b.start + i) = e.stored (b.start + i) e.config.chip.erasedValue := by
  have hstored := hs.inside (b.start + i) ⟨Nat.le_add_right _ _, Nat.add_lt_add_left hi _⟩
  rw [Block.command, Command.span, Nat.add_sub_cancel_left, cells, Image.byte_blank hi] at hstored
  exact hstored

/-- The write of a window stores what the chip makes of each of its bytes. -/
theorem Stores.byte_window {dev' : Emulator} {i : ℕ} (hs : dev.Stores (b.writing want w) dev')
    (hstop : w.stop ≤ want.size) (hb : b.start + want.size ≤ dev.memory.size) (hi : i ∈ w) :
    dev'.memory.byte (b.start + i) = dev.stored (b.start + i)
      (programmedByte dev.config.chip (dev.memory.byte (b.start + i)) (want.byte i)) := by
  have hat : b.start + i - (b.start + w.start) = i - w.start := Nat.add_sub_add_left _ _ _
  have hlen : (Image.slice want w).size = w.len := Image.size_slice hstop
  have hstored := hs.inside (b.start + i) (by
    obtain ⟨h1, h2⟩ := hi
    rw [span_writing hstop, Span.mem_def]
    dsimp only
    omega)
  rw [span_writing hstop, hat, Block.writing, cells, hlen, byte_programmed_window hstop hb hi]
    at hstored
  exact hstored

/-- **Without protected ranges**, a command on the chip stores what it should or fails, and is not
denied. -/
theorem ask_stores (hopen : e.config.protectedRanges = []) (hdev : s.device = e)
    (hc : c.span.stop ≤ e.memory.size) :
    Ends (Device.ask (device.perform c)) s fun r s' => match r with
      | .ok _ => e.Stores c s'.device
      | .error err => err.isAccessDenied = false := by
  subst hdev
  refine ends_ask ?_
  cases hcheck : s.device.check c with
  | error err =>
    rw [perform_refused hcheck]
    exact check_error hopen hcheck
  | ok _ =>
    obtain ⟨⟨o, hcarried⟩, hlate⟩ := perform_carriedOut hcheck
    have hbyte := hcarried.byte (size_cells hc) hc
    cases hresult : (device.perform c s.device).result with
    | error err =>
      rw [hlate err hresult]
      rfl
    | ok _ =>
      exact ⟨hcarried.alike, fun a ha => (hbyte a).trans (if_pos ha),
        fun a ha => (hbyte a).trans (if_neg ha)⟩

/-! ## One block -/

/-- What is known of block `b` of the chip `e` while it is processed in paranoid mode. `part` is the
copy of the block. If it was erased, the chip holds it without the stuck bits, an erased byte has none
of these, and all from the offset on is erased. Otherwise it holds the copy. -/
structure Tracks (e : Emulator) (b : Block) (erased : Bool) (offset : ℕ) (part : Image)
    (dev : Emulator) : Prop where
  alike : e.Alike dev
  size : part.size = b.size
  outside : ∀ a, a ∉ b.span → dev.memory.byte a = e.memory.byte a
  inside : ∀ i < b.size, dev.memory.byte (b.start + i) =
    if erased then e.stored (b.start + i) (part.byte i) else part.byte i
  sound : erased = true → ∀ i < b.size,
    e.stored (b.start + i) e.config.chip.erasedValue = e.config.chip.erasedValue
  blank : erased = true → ∀ i, offset ≤ i → i < b.size → part.byte i = e.config.chip.erasedValue

/-- Before anything is done, the copy is what the chip holds. -/
theorem tracks_start (hb : b.start + b.size ≤ e.memory.size) :
    e.Tracks b false 0 (Image.slice e.memory b.span) e := by
  refine ⟨Alike.refl e, Image.size_slice hb, fun _ _ => rfl, fun i hi => ?_, nofun, nofun⟩
  rw [Image.byte_slice (show i < b.span.len from hi)]
  rfl

/-- **After a window is written**, if the chip holds there what it should. -/
theorem Tracks.next {dev' : Emulator} (h : e.Tracks b erased offset part dev)
    (hal : dev.Alike dev') (hstart : offset ≤ w.start) (hstop : w.stop ≤ want.size)
    (hwant : want.size = b.size)
    (hbefore : ∀ a, a ∉ (⟨b.start + w.start, w.len⟩ : Span) →
      dev'.memory.byte a = dev.memory.byte a)
    (hin : ∀ i ∈ w, dev'.memory.byte (b.start + i) =
      if erased then e.stored (b.start + i) (want.byte i) else want.byte i) :
    e.Tracks b erased w.stop (Image.overlay part w.start (Image.slice want w)) dev' := by
  have hsize := h.size
  refine ⟨h.alike.trans hal, Image.size_overlay.trans h.size, fun a ha => ?_, fun i hi => ?_,
    h.sound, fun herased i hi hlt => ?_⟩
  · refine (hbefore a fun hw => ha ?_).trans (h.outside a ha)
    unfold Span.stop at hstop
    rw [Span.mem_def] at hw ⊢
    simp only [Block.span] at hw ⊢
    omega
  · by_cases hi' : i ∈ w
    · have hpart : (Image.overlay part w.start (Image.slice want w)).byte i = want.byte i := by
        rw [Image.byte_overlay (by omega), Image.size_slice hstop, if_pos (Span.mem_def.1 hi'),
          Image.byte_slice (by have := hi'.1; have := hi'.2; omega), Nat.add_sub_cancel' hi'.1]
      rw [hin i hi', hpart]
    · have hout : ¬(w.start ≤ i ∧ i < w.start + w.len) := hi'
      have hpart : (Image.overlay part w.start (Image.slice want w)).byte i = part.byte i := by
        exact Image.byte_overlay_outside (by rwa [Image.size_slice hstop])
      rw [hpart, ← h.inside i hi]
      refine hbefore _ fun hw => hout ?_
      rw [Span.mem_def] at hw
      dsimp only at hw
      omega
  · rw [byte_behind hstop hi]
    unfold Span.stop at hi
    exact h.blank herased i (by omega) hlt

/-- A check that finds the block erased. No bit that is stuck matters for an erased byte then. -/
theorem Stores.tracks (hs : e.Stores b.command dev)
    (hok : Image.slice dev.memory b.span = Image.blank b.size e.config.chip.erasedValue) :
    e.Tracks b true 0 (Image.blank b.size e.config.chip.erasedValue) dev := by
  have hsound : ∀ i < b.size, e.stored (b.start + i) e.config.chip.erasedValue =
      e.config.chip.erasedValue := by
    intro i hi
    have hread := congrArg (Image.byte · i) hok
    rw [Image.byte_slice (show i < b.span.len from hi), Image.byte_blank hi] at hread
    rw [← hs.byte_block hi]
    exact hread
  refine ⟨hs.alike, Image.size_blank, hs.outside, fun i hi => ?_, fun _ => hsound,
    fun _ i _ hi => Image.byte_blank hi⟩
  rw [hs.byte_block hi, Image.byte_blank hi, if_pos rfl]

/-- **The erase of a block** is checked, so the chip holds an erased block then. -/
theorem eraseBlock_tracks (hopen : e.config.protectedRanges = []) (hchip : e.config.chip = chip)
    (hparanoid : policy.paranoid = true) (hb : b.start + b.size ≤ e.memory.size)
    (hdev : ex.session.device = e) (hsize : ex.current.size = b.size) :
    Ends (eraseBlock device chip policy b) ex fun r ex' => match r with
      | .ok _ => e.Tracks b true 0 ex'.current ex'.session.device
      | .error err => policy.ignores err.cause = false := by
  subst hchip
  refine eraseBlock_checked (R := fun s => e.Stores b.command s.device)
    (T := fun s => e.Tracks b true 0 (Image.blank b.size e.config.chip.erasedValue) s.device)
    ?_ (fun _ s hs => ?_) (fun hcareless => ?_) fun s hs => ?_
  · refine (ask_stores (c := b.command) hopen hdev hb).mono fun r s h => ?_
    cases r with
    | ok _ => exact h
    | error err => exact ignores_eq_false h
  · have hle : b.span.stop ≤ s.device.memory.size := hs.alike.size.symm ▸ hb
    refine (checkErased_ends e.config.chip.erasedValue hle (Untouched.refl _)).mono ?_
    rintro r s' ⟨hu, hok, hkept⟩
    cases r with
    | error err => exact ignores_eq_false (hkept err rfl)
    | ok _ =>
      refine (hs.untouched hu).tracks ?_
      rw [hu.memory]
      exact hok.1 rfl
  · rw [hparanoid] at hcareless
    cases hcareless
  · rw [hsize]
    exact hs

/-- A check that finds the window as it should be. -/
theorem Tracks.checked {dev' : Emulator} (h : e.Tracks b false offset part dev)
    (hs : dev.Stores (b.writing want w) dev') (hstart : offset ≤ w.start)
    (hstop : w.stop ≤ want.size) (hwant : want.size = b.size)
    (hok : Image.slice dev'.memory ⟨b.start + w.start, w.len⟩ = Image.slice want w) :
    e.Tracks b false w.stop (Image.overlay part w.start (Image.slice want w)) dev' := by
  refine h.next hs.alike hstart hstop hwant (fun a ha => hs.outside a ?_) fun i hi => ?_
  · rwa [span_writing hstop]
  · obtain ⟨h1, h2⟩ := hi
    have hbyte := congrArg (Image.byte · (i - w.start)) hok
    rw [Image.byte_slice (by dsimp only; omega), Image.byte_slice (by omega),
      Nat.add_sub_cancel' h1, Nat.add_assoc, Nat.add_sub_cancel' h1] at hbyte
    exact hbyte

/-- Erased bytes take what they are given, but for the stuck bits. -/
theorem Tracks.unchecked {dev' : Emulator} (h : e.Tracks b true offset part dev)
    (hs : dev.Stores (b.writing want w) dev') (hstart : offset ≤ w.start)
    (hstop : w.stop ≤ want.size) (hwant : want.size = b.size)
    (hb : b.start + b.size ≤ e.memory.size) :
    e.Tracks b true w.stop (Image.overlay part w.start (Image.slice want w)) dev' := by
  refine h.next hs.alike hstart hstop hwant (fun a ha => hs.outside a ?_) fun i hi => ?_
  · rwa [span_writing hstop]
  · obtain ⟨h1, h2⟩ := hi
    have hib : i < b.size := by
      unfold Span.stop at hstop
      omega
    have hcell : dev.memory.byte (b.start + i) = e.config.chip.erasedValue := by
      rw [h.inside i hib, if_pos rfl, h.blank rfl i (hstart.trans h1) hib, h.sound rfl i hib]
    rw [hs.byte_window hstop (by rw [hwant, h.alike.size]; exact hb) ⟨h1, h2⟩, hcell,
      h.alike.config, programmedByte_of_programs (.inr (programByte_erased _ _)), stored, stored,
      h.alike.config]
    rfl

/-- **The write of a window** is checked, unless it is into erased bytes. -/
theorem writeWindow_tracks (hopen : e.config.protectedRanges = []) (hchip : e.config.chip = chip)
    (hparanoid : policy.paranoid = true) (hb : b.start + b.size ≤ e.memory.size)
    (hwant : want.size = b.size) (hstart : offset ≤ w.start) (hstop : w.stop ≤ want.size)
    (h : e.Tracks b erased offset ex.current ex.session.device) :
    Ends (writeWindow device chip policy b want erased w) ex fun r ex' => match r with
      | .ok _ => e.Tracks b erased w.stop ex'.current ex'.session.device ∧
          ex'.current = Image.overlay ex.current w.start (Image.slice want w)
      | .error err => policy.ignores err.cause = false := by
  subst hchip
  have hlen : (Image.slice want w).size = w.len := Image.size_slice hstop
  have hle : b.start + w.start + w.len ≤ ex.session.device.memory.size := by
    unfold Span.stop at hstop
    rw [h.alike.size]
    omega
  refine writeWindow_checked (R := fun s => ex.session.device.Stores (b.writing want w) s.device)
    (T := fun s => e.Tracks b erased w.stop
      (Image.overlay ex.current w.start (Image.slice want w)) s.device)
    ?_ (fun hcareful s hs => ?_) (fun hcareless s hs => ?_) fun s hs => ⟨hs, rfl⟩
  · refine (ask_stores (c := b.writing want w) (h.alike.config ▸ hopen) rfl ?_).mono
      fun r s hs => ?_
    · rw [span_writing hstop]
      exact hle
    · cases r with
      | ok _ => exact hs
      | error err => exact ignores_eq_false hs
  · rw [Bool.and_eq_true, Bool.not_eq_true'] at hcareful
    rw [hcareful.2] at h ⊢
    have hverify : Ends
        (verifyRange device e.config.chip (Image.slice want w) (b.start + w.start) policy) s _ :=
      verifyRange_open e.config.chip policy (by rw [hs.alike.config, h.alike.config, hopen])
        (by rw [hs.alike.size, hlen]; exact hle) (Untouched.refl _)
    refine (hverify.and (verifyRange_unignored device e.config.chip s)).mono ?_
    rintro r s' ⟨⟨hu, hok⟩, hkept⟩
    cases r with
    | error err => exact hkept err rfl
    | ok _ =>
      refine h.checked (hs.untouched hu) hstart hstop hwant ?_
      rw [hu.memory, ← hlen]
      exact hok.1 rfl
  · rw [hparanoid, Bool.true_and, Bool.not_eq_false'] at hcareless
    rw [hcareless] at h ⊢
    exact h.unchecked hs hstart hstop hwant hb

/-- **The writes of a block** make the copy what it should be, or one of them fails. -/
theorem writeWindows_tracks (hopen : e.config.protectedRanges = []) (hchip : e.config.chip = chip)
    (hparanoid : policy.paranoid = true) (hb : b.start + b.size ≤ e.memory.size)
    (hwant : want.size = b.size) (hn : want.size ≤ offset + n)
    (h : e.Tracks b erased offset ex.current ex.session.device)
    (hmatches : Matches chip.granularity ex.current want offset) :
    Ends (writeWindows device chip policy b want erased n offset) ex fun r ex' => match r with
      | .ok _ => ∃ k, e.Tracks b erased k want ex'.session.device
      | .error err => policy.ignores err.cause = false := by
  refine writeWindows_ends
    (J := fun offset ex => e.Tracks b erased offset ex.current ex.session.device ∧
      Matches chip.granularity ex.current want offset)
    (Q := fun r ex => match r with
      | .ok _ => ∃ k, e.Tracks b erased k want ex.session.device
      | .error err => policy.ignores err.cause = false) ?_ ?_ hn ⟨h, hmatches⟩
  · rintro offset ex ⟨h, hmatches⟩ hend
    exact ⟨offset, hmatches.eq hend ▸ h⟩
  · rintro offset w ex ⟨h, hmatches⟩ hw
    obtain ⟨hstart, -, hstop⟩ := nextWindow?_bounds hw
    have hin : w.stop ≤ want.size := hstop.trans (Nat.min_le_right _ _)
    refine (writeWindow_tracks hopen hchip hparanoid hb hwant hstart hin h).mono ?_
    rintro (err | _) ex₁ h₁
    · exact h₁
    · obtain ⟨h₁, hcurrent⟩ := h₁
      refine ⟨h₁, ?_⟩
      rw [hcurrent]
      exact hmatches.next hw

/-- **One block** that is completed holds what it should, or what is left of that by the stuck bits
if it was erased. -/
theorem processBlock_tracks (hopen : e.config.protectedRanges = []) (hchip : e.config.chip = chip)
    (hparanoid : policy.paranoid = true) (hb : b.start + b.size ≤ e.memory.size)
    (hwant : want.size = b.size) (hdev : ex.session.device = e)
    (hcur : ex.current = Image.slice e.memory b.span) :
    Ends (processBlock device chip policy b want) ex fun r ex' => match r with
      | .ok _ => ∃ k, e.Tracks b
          (needErase (Image.slice e.memory b.span) want chip.granularity chip.erasedValue) k want
          ex'.session.device
      | .error err => policy.ignores err.cause = false := by
  have hsize : ex.current.size = b.size := by
    rw [hcur]
    exact Image.size_slice hb
  rw [← hcur]
  refine processBlock_ends (P := fun erased ex' =>
    needErase ex.current want chip.granularity chip.erasedValue = erased ∧
      e.Tracks b erased 0 ex'.current ex'.session.device) (fun hneed => ?_) (fun hkeep => ?_) ?_
  · refine (eraseBlock_tracks hopen hchip hparanoid hb hdev hsize).mono fun r ex' h' => ?_
    cases r with
    | ok _ => exact ⟨hneed, h'⟩
    | error err => exact h'
  · refine ⟨hkeep, ?_⟩
    rw [hcur, hdev]
    exact tracks_start hb
  · rintro erased ex' ⟨hneed, h'⟩
    refine (writeWindows_tracks hopen hchip hparanoid hb hwant (Nat.zero_add _).ge h'
      (matches_start _ (h'.size.trans hwant.symm))).mono fun r ex'' h'' => ?_
    cases r with
    | ok _ => exact hneed ▸ h''
    | error err => exact h''

/-! ## All blocks -/

/-- Block `b` needs an erase. -/
def erases (e : Emulator) (new : Image) (b : Block) : Bool :=
  needErase (Image.slice e.memory b.span) (Image.slice new b.span) e.config.chip.granularity
    e.config.chip.erasedValue

/-- In the block, the memory `m` is as it should be. In one that was erased, the stuck bits are zero,
and none of them is set in an erased byte. -/
def Kept (e : Emulator) (new : Image) (b : Block) (m : Image) : Prop :=
  ∀ a ∈ b.span, if e.erases new b then
    e.stored a e.config.chip.erasedValue = e.config.chip.erasedValue ∧
      m.byte a = e.stored a (new.byte a)
    else m.byte a = new.byte a

/-- The blocks in `past` were processed, and everything else is as it was. -/
structure Checked (e : Emulator) (new : Image) (past : List Block) (dev : Emulator)
    (current : Image) : Prop where
  alike : e.Alike dev
  size : current.size = e.memory.size
  kept : ∀ b ∈ past, e.Kept new b dev.memory
  fresh : e.Fresh past dev current

/-- **One more block**, apart from those before it. -/
theorem Checked.next {e' : Emulator} {k : ℕ} (h : e.Checked new past dev current)
    (hdis : ∀ c ∈ past, ∀ a ∈ c.span, a ∉ b.span) (hpart : part.size = b.size)
    (hb : dev.Tracks b (e.erases new b) k (Image.slice new b.span) e') :
    e.Checked new (past ++ [b]) e' (Image.overlay current b.start part) := by
  refine ⟨h.alike.trans hb.alike, Image.size_overlay.trans h.size, ?_,
    h.fresh.next hpart hb.outside⟩
  · intro c hc
    rcases List.mem_append.1 hc with hc | hc
    · intro a ha
      rw [hb.outside a (hdis c hc a ha)]
      exact h.kept c hc a ha
    · rw [List.mem_singleton.1 hc]
      intro a ha
      obtain ⟨i, rfl⟩ := Nat.exists_eq_add_of_le ha.1
      have hi : i < b.size := by
        have hlt := ha.2
        simp only [Block.span] at hlt
        omega
      have hinside := hb.inside i hi
      have hstored : ∀ x, dev.stored (b.start + i) x = e.stored (b.start + i) x := fun x => by
        rw [stored, stored, h.alike.config]
      rw [Image.byte_slice (show i < b.span.len from hi), hstored] at hinside
      cases herased : e.erases new b with
      | true =>
        have hsound := hb.sound herased i hi
        rw [hstored, h.alike.config] at hsound
        rw [herased] at hinside
        exact ⟨hsound, hinside⟩
      | false =>
        rw [herased] at hinside
        exact hinside

/-- **Blocks without a common address** that are all completed. -/
theorem processBlocks_checked {done : ℕ} (hopen : e.config.protectedRanges = [])
    (hchip : e.config.chip = chip) (hparanoid : policy.paranoid = true)
    (hnew : new.size = e.memory.size) (hin : ∀ b ∈ bs, b.start + b.size ≤ new.size)
    (hdis : bs.Pairwise fun b c => ∀ a ∈ b.span, a ∉ c.span)
    (h : e.Checked new [] ex.session.device ex.current) :
    Ends (processBlocks device chip policy new bs done) ex fun r ex' =>
      ∀ u, r = .ok u → ∀ b ∈ bs, e.Kept new b ex'.session.device.memory := by
  refine processBlocks_past (J := fun past dev current _ => e.Checked new past dev current)
    (Q := fun r dev _ _ => ∀ u, r = .ok u → ∀ b ∈ bs, e.Kept new b dev.memory)
    (fun dev current stats hchecked _ _ => hchecked.kept) ?_ h
  intro past b rest ex₁ hbs hchecked
  have hb : b.start + b.size ≤ new.size := hin b (by rw [hbs]; simp)
  have hle : b.span.stop ≤ e.memory.size := hb.trans_eq hnew
  have hledev : b.span.stop ≤ ex₁.session.device.memory.size := hchecked.alike.size.symm ▸ hle
  have hapart := Block.apart hdis hbs
  -- the block is still what it was at the start, on the chip and in the copy
  obtain ⟨hmemory, hcurrent⟩ := hchecked.fresh.agree hapart
  have hmemory : Image.slice ex₁.session.device.memory b.span = Image.slice e.memory b.span :=
    (Image.agree_iff_slice hledev hle).1 hmemory
  have hcopy : Image.slice ex₁.current b.span = Image.slice e.memory b.span :=
    (Image.agree_iff_slice (hchecked.size.symm ▸ hle) hle).1 hcurrent
  have hpart : (ex₁.enter b).current.size = b.size := Image.size_slice (hchecked.size.symm ▸ hle)
  have htracks : Ends (processBlock device chip policy b (Image.slice new b.span)) (ex₁.enter b) _ :=
    processBlock_tracks (hchecked.alike.config ▸ hopen) (hchecked.alike.config ▸ hchip) hparanoid
      hledev (Image.size_slice hb) rfl (hcopy.trans hmemory.symm)
  refine (htracks.and processBlock_counts).mono ?_
  rintro r ex₂ ⟨htracks, hsize₂, -⟩
  cases r with
  | ok outcome =>
    obtain ⟨k, htracks⟩ := htracks
    rw [hmemory, ← hchip] at htracks
    exact hchecked.next hapart (hsize₂.trans hpart) htracks
  | error err =>
    simp only [AfterBlock]
    rw [if_neg (Bool.eq_false_iff.1 htracks)]
    rintro _ ⟨⟩

/-- Where a stuck bit leaves the erased byte of all ones as it is, no bit is stuck. -/
theorem stored_eq {a : ℕ} (h : e.stored a 0xFF = 0xFF) (x : UInt8) : e.stored a x = x := by
  unfold stored at h ⊢
  have hmask : ~~~stuckMask e.config.stuckBits a = 0xFF := by
    rwa [show (0xFF : UInt8) = -1 from rfl, UInt8.neg_one_and] at h
  rw [hmask, show (0xFF : UInt8) = -1 from rfl, UInt8.and_neg_one]

/-- A small chip with a stuck bit in a block that is written without an erase. -/
def chipped : Emulator where
  config := { chip := Chip.small, stuckBits := [(0, 1)] }
  memory := #[255, 255, 0, 0, 255, 255, 255, 255]

/-- A small chip with a stuck bit, on which zero is the erased value. -/
def faded : Emulator where
  config := { chip := { Chip.small with erasedValue := 0 }, stuckBits := [(0, 1)] }
  memory := #[2, 0, 0, 0, 0, 0, 0, 0]

/-- **An execution in paranoid mode** that succeeds on a chip without protected ranges has put the
new contents into every planned block that needed no erase. In one that did, it has put the new
contents without the bits that are stuck at zero, and none of these is set in an erased byte. So
where a byte of all ones is erased, every planned block is as it should be. -/
theorem executePlan_paranoid {σ : Type} {filter : EraserFilter σ} {t : Session σ} {extent : ℕ}
    {old : Image} {plan : Plan} {stats : ExecutionStats} {s' : Session Emulator}
    (hplan : (Plan.prepare chip old new extent filter t).1 = .ok plan)
    (he : s.device.Emulates chip) (hopen : s.device.config.protectedRanges = [])
    (hparanoid : policy.paranoid = true)
    (hrun : executePlan device chip plan s.device.memory policy s = ((.ok stats, current), s')) :
    ∀ b ∈ plan.blocks, s.device.Kept new b s'.device.memory ∧
      (chip.erasedValue = 0xFF → ∀ a ∈ b.span, s'.device.memory.byte a = new.byte a) := by
  have hwell := prepare_wellFormed hplan
  obtain ⟨-, hnew, es, -, -, -, rfl⟩ := prepare_eq hplan
  have hsize : s.device.memory.size = new.size := he.size.trans hnew.symm
  have hends : Ends (executePlan device chip (Plan.ofErasers chip old new es) s.device.memory policy)
      s fun r s' => ∀ stats, r.1 = .ok stats →
        ∀ b ∈ (Plan.ofErasers chip old new es).blocks, s.device.Kept new b s'.device.memory := by
    refine executePlan_ends (Q := fun r _ (dev : Emulator) => ∀ stats, r = .ok stats →
      ∀ b ∈ (Plan.ofErasers chip old new es).blocks, s.device.Kept new b dev.memory) hsize
      fun u hu => ?_
    refine (processBlocks_checked hopen he.follows hparanoid hsize.symm (fun b hb => ?_)
      hwell.blocks_disjoint ?_).mono fun r ex hkept stats hr => ?_
    · exact (hwell.blocks_inside hb).trans_eq hnew.symm
    · exact ⟨hu ▸ Alike.refl _, rfl, by simp, fun a _ => ⟨by rw [hu], rfl⟩⟩
    · cases r with
      | ok v => exact hkept v rfl
      | error err => cases hr
  intro b hb
  have hkept := hends.result hrun stats rfl b hb
  refine ⟨hkept, fun hones a ha => ?_⟩
  have hbyte := hkept a ha
  rw [he.follows, hones] at hbyte
  split at hbyte
  · rw [hbyte.2, stored_eq hbyte.1]
  · exact hbyte

/-- The first block is written over the stuck bit, which the new contents do not set. The second
one is erased first. -/
theorem executePlan_paranoid_chipped : ∃ plan stats current s',
    (Plan.prepare Chip.small chipped.memory #[254, 255, 7, 7, 255, 255, 255, 255] 8 EraserFilter.all
      (⟨(), #[], #[]⟩ : Session Unit)).1 = .ok plan ∧
    executePlan device Chip.small plan chipped.memory { paranoid := true } ⟨chipped, #[], #[]⟩ =
      ((.ok stats, current), s') ∧
    stats.erases = 1 ∧ stats.writes = 2 ∧ plan.blocks = [⟨0, 2, 1⟩, ⟨2, 2, 1⟩] ∧
    s'.device.memory.byte 0 = 254 ∧ s'.device.memory.byte 3 = 7 := by
  have hstats : (executePlan device Chip.small
      ⟨chipped.memory, #[254, 255, 7, 7, 255, 255, 255, 255], [⟨2, 0, 2, 1, 0⟩]⟩ chipped.memory
      { paranoid := true } ⟨chipped, #[], #[]⟩).1.1 = .ok ⟨2, 0, 0, 1, 2, 2, 3, true⟩ := by
    decide +kernel
  generalize hrun : executePlan device Chip.small
    ⟨chipped.memory, #[254, 255, 7, 7, 255, 255, 255, 255], [⟨2, 0, 2, 1, 0⟩]⟩ chipped.memory
    { paranoid := true } ⟨chipped, #[], #[]⟩ = x at hstats
  obtain ⟨⟨_, current⟩, s'⟩ := x
  cases hstats
  have hkept := @executePlan_paranoid ⟨chipped, #[], #[]⟩ Chip.small { paranoid := true }
    #[254, 255, 7, 7, 255, 255, 255, 255] current Unit EraserFilter.all ⟨(), #[], #[]⟩ 8
    chipped.memory ⟨chipped.memory, #[254, 255, 7, 7, 255, 255, 255, 255], [⟨2, 0, 2, 1, 0⟩]⟩ _ s'
    rfl ⟨rfl, rfl⟩ rfl rfl hrun
  exact ⟨_, _, current, s', rfl, hrun, rfl, rfl, rfl,
    (hkept ⟨0, 2, 1⟩ (by decide)).2 rfl 0 (by decide),
    (hkept ⟨2, 2, 1⟩ (by decide)).2 rfl 3 (by decide)⟩

/-- **A stuck bit that is found by no check.** The erase of the first block is checked, but the stuck
bit is zero in an erased byte. The write after it, which should set the bit, is not. -/
theorem executePlan_unnoticed : ∃ plan stats current s',
    (Plan.prepare faded.config.chip faded.memory #[1, 0, 0, 0, 0, 0, 0, 0] 8 EraserFilter.all
      (⟨(), #[], #[]⟩ : Session Unit)).1 = .ok plan ∧
    executePlan device faded.config.chip plan faded.memory { paranoid := true } ⟨faded, #[], #[]⟩ =
      ((.ok stats, current), s') ∧
    plan.blocks = [⟨0, 2, 1⟩] ∧ s'.device.memory.byte 0 ≠ 1 := by
  have hrun : (fun x : (Except ExecutionError ExecutionStats × Image) × Session Emulator =>
        (x.1.1, x.2.device.memory)) (executePlan device faded.config.chip
          ⟨faded.memory, #[1, 0, 0, 0, 0, 0, 0, 0], [⟨2, 0, 1, 1, 0⟩]⟩ faded.memory
          { paranoid := true } ⟨faded, #[], #[]⟩) =
      (.ok ⟨1, 0, 0, 1, 2, 1, 1, true⟩, Image.blank 8 0) := by decide +kernel
  generalize hx : executePlan device faded.config.chip
    ⟨faded.memory, #[1, 0, 0, 0, 0, 0, 0, 0], [⟨2, 0, 1, 1, 0⟩]⟩ faded.memory
    { paranoid := true } ⟨faded, #[], #[]⟩ = x at hrun
  obtain ⟨⟨r, current⟩, s'⟩ := x
  obtain ⟨rfl, hmemory⟩ := Prod.mk.inj hrun
  refine ⟨_, _, current, s', rfl, hx, rfl, ?_⟩
  rw [hmemory]
  decide

end Reflash.Emulator
