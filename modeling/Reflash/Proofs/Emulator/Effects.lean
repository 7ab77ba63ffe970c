import Reflash.Proofs.Emulator.Execution
import Reflash.Proofs.Recording

/-!
# What commands make of a memory

A command that an emulated chip without stuck bits accepts changes the memory in a
way that depends only on the chip and on what the memory holds in the span of the
command (`Command.apply`). That the chip is late does not undo the change.

* `agree_applyAll`, `byte_applyAll`: commands depend on and change only their spans.
* `perform_refused`, `perform_accepted`: a command is refused and changes nothing, or it
  takes effect.
* `Underwent`: what accepted commands made of a chip.
-/

namespace Reflash

/-! ## Effects on a memory -/

namespace Command

/-- What becomes of a memory when the command is carried out. -/
def apply (chip : Chip) : Command → Image → Image
  | erase _ address len, m => Image.overlay m address (Image.blank len chip.erasedValue)
  | write address data, m =>
    Image.overlay m address (Emulator.programmed chip (Image.slice m ⟨address, data.size⟩) data)

/-- What becomes of a memory when the commands are carried out one after the other. -/
def applyAll (chip : Chip) (cs : List Command) (m : Image) : Image :=
  cs.foldl (fun m c => c.apply chip m) m

/-- The operation that is recorded when the command is carried out. -/
def record : Command → Operation
  | erase function address len => .erase function address len
  | write address data => .write address data.size

/-- How often a chip that carries out the command is polled at most. -/
def patience : Command → ℕ
  | erase _ _ _ => 4000
  | write _ _ => 1000

/-- The error of an execution in which the command fails. -/
def failure (c : Command) (cause : FlashError) : ExecutionError :=
  ⟨if c.isErase then .erase else .write, c.span.start, c.span.len, cause⟩

variable {chip : Chip} {c : Command} {cs cs' : List Command} {m m' : Image} {a : ℕ} {s : Span}

theorem le_patience (c : Command) : 1000 ≤ c.patience := by
  cases c <;> simp [patience]

theorem applyAll_append :
    applyAll chip (cs ++ cs') m = applyAll chip cs' (applyAll chip cs m) := List.foldl_append

theorem size_apply : (c.apply chip m).size = m.size := by
  cases c <;> exact Image.size_overlay

theorem size_applyAll : (applyAll chip cs m).size = m.size := by
  induction cs generalizing m with
  | nil => rfl
  | cons c cs ih => exact ih.trans size_apply

/-- What a write puts over the memory is not longer than its data. -/
theorem size_programmed_le (cells data : Image) :
    (Emulator.programmed chip cells data).size ≤ data.size := by
  unfold Emulator.programmed
  split
  · exact Nat.le_refl _
  · rw [Array.size_zipWith]
    exact Nat.min_le_right _ _

/-- Outside its span, a command changes nothing. -/
theorem byte_apply (ha : a ∉ c.span) : (c.apply chip m).byte a = m.byte a := by
  cases c with
  | erase f address len =>
    refine Image.byte_overlay_outside ?_
    rw [Image.size_blank]
    exact ha
  | write address data =>
    have ha : ¬(address ≤ a ∧ a < address + data.size) := ha
    have hle : (Emulator.programmed chip (Image.slice m ⟨address, data.size⟩) data).size ≤ _ :=
      size_programmed_le _ _
    exact Image.byte_overlay_outside (by omega)

/-- **Outside their spans**, commands change nothing. -/
theorem byte_applyAll (ha : ∀ c ∈ cs, a ∉ c.span) : (applyAll chip cs m).byte a = m.byte a := by
  induction cs generalizing m with
  | nil => rfl
  | cons c cs ih =>
    obtain ⟨hc, hcs⟩ := List.forall_mem_cons.1 ha
    exact (ih hcs).trans (byte_apply hc)

/-- What a write makes of a byte in its range. -/
theorem byte_write {i : ℕ} {data : Image} (hi : i < m.size) (ha : a ≤ i)
    (hlt : i < a + data.size) : ((write a data).apply chip m).byte i =
      programmedByte chip (m.byte i) (data.byte (i - a)) := by
  have hcells : i - a < (Image.slice m ⟨a, data.size⟩).size := by
    rw [Image.slice, Array.size_extract]
    dsimp only
    omega
  have hsize : i - a < (Emulator.programmed chip (Image.slice m ⟨a, data.size⟩) data).size := by
    unfold Emulator.programmed
    split
    · omega
    · rw [Array.size_zipWith]
      omega
  have hback : a + (i - a) = i := Nat.add_sub_cancel' ha
  rw [apply, Image.byte_overlay hi, if_pos ⟨ha, by omega⟩,
    byte_programmed hcells (by omega), Image.byte_slice (by dsimp only; omega)]
  simp only [hback]

/-- A command inside a span makes the same of two memories that agree there. -/
theorem agree_apply (hsize : m'.size = m.size) (hin : c.span.Within s) (h : Image.Agree s m' m) :
    Image.Agree s (c.apply chip m') (c.apply chip m) := by
  intro a ha
  by_cases hlt : a < m.size
  · cases c with
    | erase f address len =>
      rw [apply, apply, Image.byte_overlay (hsize.symm ▸ hlt), Image.byte_overlay hlt]
      split
      · rfl
      · exact h a ha
    | write address data =>
      have hcells : Image.slice m' ⟨address, data.size⟩ = Image.slice m ⟨address, data.size⟩ := by
        refine Image.ext_byte ?_ fun i hi => ?_
        · rw [Image.slice, Array.size_extract, Image.slice, Array.size_extract, hsize]
        · rw [Image.slice, Array.size_extract] at hi
          rw [Image.byte_slice (by dsimp only at hi ⊢; omega),
            Image.byte_slice (by dsimp only at hi ⊢; omega)]
          refine h _ (hin _ (Span.mem_def.2 ⟨Nat.le_add_right _ _, ?_⟩))
          simp only [span] at hi ⊢
          omega
      rw [apply, apply, hcells, Image.byte_overlay (hsize.symm ▸ hlt), Image.byte_overlay hlt]
      split
      · rfl
      · exact h a ha
  · -- behind the end every byte is zero
    rw [Image.byte_eq, Image.byte_eq, Array.getElem?_eq_none (by rw [size_apply]; omega),
      Array.getElem?_eq_none (by rw [size_apply]; omega)]

/-- **Commands inside a span** make the same of two memories that agree there. -/
theorem agree_applyAll (hsize : m'.size = m.size) (hin : ∀ c ∈ cs, c.span.Within s)
    (h : Image.Agree s m' m) : Image.Agree s (applyAll chip cs m') (applyAll chip cs m) := by
  induction cs generalizing m m' with
  | nil => exact h
  | cons c cs ih =>
    obtain ⟨hc, hcs⟩ := List.forall_mem_cons.1 hin
    exact ih (by rw [size_apply, size_apply, hsize]) hcs (agree_apply hsize hc h)

end Command

/-- The device is given the command. -/
def Device.perform {σ : Type} (d : Device σ) : Command → σ → Reply σ Unit
  | .erase function address len => d.erase function address len
  | .write address data => d.write address data

/-! ## Effects on an emulated chip -/

namespace Emulator

variable {e e' e₁ e₂ : Emulator} {c : Command} {cs cs₁ cs₂ : List Command} {err : FlashError}

/-- What keeps a command from being carried out. -/
def check (e : Emulator) : Command → Except FlashError Unit
  | .erase function address len => e.checkErase function address len
  | .write address data => e.checkWrite address data.size

/-- The command is not refused. -/
def accepts (e : Emulator) (c : Command) : Bool := (e.check c).isOk

theorem accepts_iff : e.accepts c = true ↔ e.check c = .ok () := by
  unfold accepts
  cases e.check c <;> simp [Except.isOk, Except.toBool]

/-- Which commands are refused depends on the configuration and the size of the memory. -/
theorem check_congr (h : e.Alike e') (c : Command) : e'.check c = e.check c := by
  cases c with
  | erase f a n => exact checkErase_congr h f a n
  | write a data =>
    unfold check checkWrite inside
    dsimp only
    rw [h.config, h.size]

/-- What a command puts over its span. -/
def cells (e : Emulator) : Command → Image
  | .erase _ _ len => Image.blank len e.config.chip.erasedValue
  | .write address data =>
    programmed e.config.chip (Image.slice e.memory ⟨address, data.size⟩) data

theorem size_cells (hc : c.span.stop ≤ e.memory.size) : (e.cells c).size = c.span.len := by
  cases c with
  | erase i a n => exact Image.size_blank
  | write a data => exact size_programmed (Image.size_slice hc)

/-- **A command that is not refused** is carried out, and fails only if the chip is not ready in
time. -/
theorem perform_done (h : e.check c = .ok ()) :
    e.CarriedOut (device.perform c e).device c.span (e.cells c) c.record ∧
      (device.perform c e).result = if (device.perform c e).device.stuckBusy = true ∨
        c.patience ≤ e.config.busyPolls then .error .timeout else .ok () := by
  cases c with
  | erase f a n => exact erase_carriedOut h
  | write a data => exact write_carriedOut h

/-- The chip never keeps anyone waiting for too long. -/
structure Prompt (e : Emulator) : Prop where
  reliable : Reliable e.config
  ready : e.stuckBusy = false

/-- From `e` to `e'`, the commands were accepted and took effect. -/
structure Underwent (e : Emulator) (cs : List Command) (e' : Emulator) : Prop where
  config : e'.config = e.config
  accepted : ∀ c ∈ cs, e.accepts c = true
  memory : e'.memory = Command.applyAll e.config.chip cs e.memory
  prompt : e.Prompt → e'.Prompt

theorem Underwent.refl (e : Emulator) : e.Underwent [] e := ⟨rfl, by simp, rfl, id⟩

theorem Underwent.alike (h : e.Underwent cs e') : e.Alike e' :=
  ⟨h.config, by rw [h.memory, Command.size_applyAll]⟩

theorem Underwent.trans (h₁ : e.Underwent cs₁ e₁) (h₂ : e₁.Underwent cs₂ e₂) :
    e.Underwent (cs₁ ++ cs₂) e₂ := by
  refine ⟨h₂.config.trans h₁.config, fun c hc => ?_, ?_, h₂.prompt ∘ h₁.prompt⟩
  · rcases List.mem_append.1 hc with hc | hc
    · exact h₁.accepted c hc
    · have := h₂.accepted c hc
      rwa [accepts, check_congr h₁.alike] at this
  · rw [h₂.memory, h₁.memory, h₁.config, Command.applyAll_append]

theorem Untouched.underwent (h : e.Untouched e') : e.Underwent [] e' :=
  ⟨h.config, by simp, h.memory, fun hp => ⟨h.config ▸ hp.reliable, h.stuckBusy.trans hp.ready⟩⟩

/-- Reading makes no difference. -/
theorem Underwent.untouched (h : e.Underwent cs e₁) (hu : e₁.Untouched e₂) :
    e.Underwent cs e₂ := by
  have := h.trans hu.underwent
  rwa [List.append_nil] at this

/-- **A command that is refused** leaves everything as it is. -/
theorem perform_refused (h : e.check c = .error err) :
    device.perform c e = .quiet (.error err) e := by
  cases c with
  | erase f a n => exact erase_refused h
  | write a data => exact write_refused h

/-- What is carried out without stuck bits. -/
theorem CarriedOut.underwent {cells : Image} {o : Operation} (hstuck : e.config.stuckBits = [])
    (hok : e.check c = .ok ()) (h : e.CarriedOut e' c.span cells o)
    (hcells : c.apply e.config.chip e.memory = Image.overlay e.memory c.span.start cells) :
    e.Underwent [c] e' := by
  refine ⟨h.config, fun c' hc' => ?_, ?_, fun hp => ⟨h.config ▸ hp.reliable, ?_⟩⟩
  · rw [List.mem_singleton.1 hc']
    exact accepts_iff.2 hok
  · have hmemory := h.memory
    rw [hstuck] at hmemory
    exact hmemory.trans hcells.symm
  · rw [h.stuckBusy, hp.ready, hp.reliable.stuckBusyAt]
    rfl

/-- A prompt chip is ready within the time that it is given. -/
theorem Prompt.not_late (h : e.Prompt) {polls : ℕ} (hpolls : 1000 ≤ polls) :
    ¬(e.stuckBusy = true ∨ polls ≤ e.config.busyPolls) := by
  rintro (hstuck | hle)
  · rw [h.ready] at hstuck
    cases hstuck
  · exact absurd (hpolls.trans hle) (Nat.not_le.2 h.reliable.polls)

/-- **A command that is not refused** takes effect, and succeeds unless the chip is late. -/
theorem perform_accepted (hstuck : e.config.stuckBits = []) (h : e.check c = .ok ()) :
    e.Underwent [c] (device.perform c e).device ∧
      ((device.perform c e).result = .ok () ∨
        ¬e.Prompt ∧ (device.perform c e).result = .error .timeout) := by
  obtain ⟨hcarried, hresult⟩ := perform_done h
  have hafter : e.Underwent [c] (device.perform c e).device := by
    refine hcarried.underwent hstuck h ?_
    cases c <;> rfl
  refine ⟨hafter, ?_⟩
  rw [hresult]
  split
  · rename_i hlate
    refine .inr ⟨fun hp => ?_, rfl⟩
    rw [← hcarried.config] at hlate
    exact (hafter.prompt hp).not_late c.le_patience hlate
  · exact .inl rfl

end Emulator

end Reflash
