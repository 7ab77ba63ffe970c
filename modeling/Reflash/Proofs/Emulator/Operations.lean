import Reflash.Emulator
import Reflash.Proofs.Device
import Reflash.Proofs.Image

/-!
# Operations of an emulated chip

An erase or a write is refused before anything happens, or it is carried out
(`Emulator.CarriedOut`): the memory changes, the operation is recorded, and the chip
is waited for. Only the waiting can still fail.

* `write_carriedOut`, `erase_carriedOut`: what is left by an operation that is not refused.
* `readsKeep_untouched`: reading leaves memory and faults alone.
* `keeps_alike`: nothing changes the configuration or the size of the memory.
* `keeps_stuckByAddress`: nothing but a configured address makes the chip busy for good.
-/

namespace Reflash.Emulator

variable {e e' e₁ e₂ : Emulator} {s : Span} {m : Image}

/-! ## Stuck bits -/

theorem size_stick (stuckBits : List (ℕ × UInt8)) (s : Span) (m : Image) :
    (stick stuckBits s m).size = m.size := by
  unfold stick
  induction stuckBits generalizing m with
  | nil => rfl
  | cons p ps ih =>
    obtain ⟨a, mask⟩ := p
    rw [List.foldl_cons, ih]
    dsimp only
    split
    · exact Array.size_modify
    · rfl

/-- The bits that are stuck at an address. -/
def stuckMask (stuckBits : List (ℕ × UInt8)) (a : ℕ) : UInt8 :=
  stuckBits.foldr (fun p mask => if p.1 = a then p.2 ||| mask else mask) 0

theorem and_not_or (x y z : UInt8) : x &&& ~~~(y ||| z) = x &&& ~~~y &&& ~~~z := by
  apply UInt8.toBitVec_inj.1
  apply BitVec.eq_of_getLsbD_eq
  intro i hi
  simp [hi, Bool.and_assoc]

theorem byte_modify (m : Image) (a i : ℕ) (mask : UInt8) : Image.byte (m.modify a (· &&& ~~~mask)) i =
    if a = i then m.byte i &&& ~~~mask else m.byte i := by
  rw [Image.byte_eq, Image.byte_eq, Array.getElem?_modify]
  split
  · subst a
    cases m[i]? with
    | none => exact UInt8.zero_and.symm
    | some b => rfl
  · rfl

/-- **In the span of an operation, stuck bits are cleared**, and elsewhere they do not show. -/
theorem byte_stick (stuckBits : List (ℕ × UInt8)) (s : Span) (m : Image) (i : ℕ) :
    (stick stuckBits s m).byte i =
      if i ∈ s then m.byte i &&& ~~~stuckMask stuckBits i else m.byte i := by
  unfold stick
  induction stuckBits generalizing m with
  | nil =>
    show m.byte i = if i ∈ s then m.byte i &&& ~~~0 else m.byte i
    rw [UInt8.not_zero, UInt8.and_neg_one, ite_self]
  | cons p ps ih =>
    obtain ⟨a, mask⟩ := p
    rw [List.foldl_cons, ih]
    dsimp only
    by_cases hi : i ∈ s
    · rw [if_pos hi, if_pos hi]
      show _ = m.byte i &&& ~~~(if a = i then mask ||| stuckMask ps i else stuckMask ps i)
      by_cases ha : a = i
      · subst a
        rw [if_pos hi, byte_modify, if_pos rfl, if_pos rfl, and_not_or]
      · rw [if_neg ha]
        split
        · rw [byte_modify, if_neg ha]
        · rfl
    · rw [if_neg hi, if_neg hi]
      split
      · rename_i ha
        rw [byte_modify, if_neg]
        rintro rfl
        exact hi ha
      · rfl

/-! ## Waiting -/

/-- The chip does not become ready within so many polls. -/
def Late (e : Emulator) (polls : ℕ) : Prop := e.stuckBusy = true ∨ polls ≤ e.busyPolls

instance (e : Emulator) (polls : ℕ) : Decidable (e.Late polls) :=
  inferInstanceAs (Decidable (_ ∨ _))

theorem delay_eq (delay : ℕ) (e : Emulator) :
    ∃ elapsed, (if 0 < delay then busy.delay delay e else e) = { e with elapsed := elapsed } := by
  split
  · exact ⟨_, rfl⟩
  · exact ⟨_, rfl⟩

/-- Polling takes time and uses up busy polls. It fails exactly if the chip is late. -/
theorem pollFrom_busy (c : PollSchedule) (n polls delay : ℕ) (e : Emulator) :
    (pollFrom busy c n polls delay e).result =
        (if e.Late n then .error .timeout else .ok ()) ∧
      ∃ left elapsed, (pollFrom busy c n polls delay e).device =
        { e with busyPolls := left, elapsed := elapsed } := by
  induction n generalizing polls delay e with
  | zero => exact ⟨by rw [if_pos (.inr (Nat.zero_le _))]; rfl, _, _, rfl⟩
  | succ n ih =>
    -- stuck for good, busy for one more poll, or ready
    unfold pollFrom
    by_cases hstuck : e.stuckBusy = true
    · have hbusy : busy.isBusy e = (.ok true, e) := if_pos hstuck
      obtain ⟨t, ht⟩ := delay_eq delay e
      rw [hbusy]
      dsimp only
      rw [ht]
      obtain ⟨hresult, left, elapsed, hdevice⟩ :=
        ih (polls + 1) (c.nextDelay delay) { e with elapsed := t }
      refine ⟨hresult.trans ?_, left, elapsed, hdevice⟩
      rw [if_pos (.inl hstuck), if_pos (.inl hstuck)]
    · by_cases hpolls : 0 < e.busyPolls
      · have hbusy : busy.isBusy e = (.ok true, { e with busyPolls := e.busyPolls - 1 }) := by
          show (if _ then _ else if _ then _ else _) = _
          rw [if_neg hstuck, if_pos hpolls]
        obtain ⟨t, ht⟩ := delay_eq delay { e with busyPolls := e.busyPolls - 1 }
        rw [hbusy]
        dsimp only
        rw [ht]
        obtain ⟨hresult, left, elapsed, hdevice⟩ := ih (polls + 1) (c.nextDelay delay)
          { e with busyPolls := e.busyPolls - 1, elapsed := t }
        refine ⟨hresult.trans (if_congr ?_ rfl rfl), left, elapsed, hdevice⟩
        unfold Late
        dsimp only
        refine or_congr_right ?_
        omega
      · have hbusy : busy.isBusy e = (.ok false, e) := by
          show (if _ then _ else if _ then _ else _) = _
          rw [if_neg hstuck, if_neg hpolls]
        rw [hbusy]
        dsimp only
        rw [if_neg]
        · exact ⟨rfl, _, _, rfl⟩
        · rintro (h | h)
          · exact hstuck h
          · omega

/-! ## Erases and writes -/

/-- From `e` to `e'`, the operation `o` put `cells` over the span `s`. -/
structure CarriedOut (e e' : Emulator) (s : Span) (cells : Image) (o : Operation) : Prop where
  config : e'.config = e.config
  memory : e'.memory = stick e.config.stuckBits s (Image.overlay e.memory s.start cells)
  operations : e'.operations = e.operations.push o
  stuckBusy : e'.stuckBusy = (e.stuckBusy || e.config.stuckBusyAt.any fun a => a ∈ s)

theorem finish_store (s : Span) (c : PollSchedule) (cells : Image) (o : Operation) (e : Emulator) :
    e.CarriedOut (finish s c (store s.start cells o e)).device s cells o ∧
      (finish s c (store s.start cells o e)).result =
        if (finish s c (store s.start cells o e)).device.stuckBusy = true ∨
          c.maxPolls ≤ e.config.busyPolls then .error .timeout else .ok () := by
  obtain ⟨hresult, left, elapsed, hdevice⟩ := pollFrom_busy c c.maxPolls 0 c.initialDelay
    ⟨e.config, stick e.config.stuckBits s (Image.overlay e.memory s.start cells),
      e.operations.push o, e.config.busyPolls,
      e.stuckBusy || e.config.stuckBusyAt.any fun a => a ∈ s, e.elapsed⟩
  have hfinish : (finish s c (store s.start cells o e)).device = _ := hdevice
  constructor
  · rw [hfinish]
    exact ⟨rfl, rfl, rfl, rfl⟩
  · rw [hfinish]
    exact hresult

/-- A write that is refused leaves everything as it is. -/
theorem write_refused {a : ℕ} {data : Image} {err : FlashError}
    (h : e.checkWrite a data.size = .error err) : write a data e = .quiet (.error err) e := by
  unfold write
  rw [h]

/-- **A write that is not refused** is carried out, and fails only if the chip is not ready in
time. -/
theorem write_carriedOut {a : ℕ} {data : Image} (h : e.checkWrite a data.size = .ok ()) :
    e.CarriedOut (write a data e).device ⟨a, data.size⟩
        (programmed e.config.chip (Image.slice e.memory ⟨a, data.size⟩) data) (.write a data.size) ∧
      (write a data e).result =
        if (write a data e).device.stuckBusy = true ∨
          PollSchedule.pageProgram.maxPolls ≤ e.config.busyPolls then .error .timeout
        else .ok () := by
  unfold write
  rw [h]
  exact finish_store ⟨a, data.size⟩ .pageProgram _ _ e

/-- An erase that is refused leaves everything as it is. -/
theorem erase_refused {function a n : ℕ} {err : FlashError}
    (h : e.checkErase function a n = .error err) :
    erase function a n e = .quiet (.error err) e := by
  unfold erase
  rw [h]

/-- **An erase that is not refused** is carried out, and fails only if the chip is not ready in
time. -/
theorem erase_carriedOut {function a n : ℕ} (h : e.checkErase function a n = .ok ()) :
    e.CarriedOut (erase function a n e).device ⟨a, n⟩ (Image.blank n e.config.chip.erasedValue)
        (.erase function a n) ∧
      (erase function a n e).result = if (erase function a n e).device.stuckBusy = true ∨
        PollSchedule.blockErase.maxPolls ≤ e.config.busyPolls then .error .timeout else .ok () := by
  unfold erase
  rw [h]
  exact finish_store ⟨a, n⟩ .blockErase _ _ e

/-! ## What reading leaves alone -/

/-- From `e` to `e'`, nothing was erased or written. -/
structure Untouched (e e' : Emulator) : Prop where
  config : e'.config = e.config
  memory : e'.memory = e.memory
  stuckBusy : e'.stuckBusy = e.stuckBusy
  erases : e'.eraseCount = e.eraseCount
  writes : e'.writeCount = e.writeCount

theorem Untouched.refl (e : Emulator) : e.Untouched e := ⟨rfl, rfl, rfl, rfl, rfl⟩

theorem Untouched.trans (h₁ : e.Untouched e₁) (h₂ : e₁.Untouched e₂) : e.Untouched e₂ :=
  ⟨h₂.config.trans h₁.config, h₂.memory.trans h₁.memory, h₂.stuckBusy.trans h₁.stuckBusy,
    h₂.erases.trans h₁.erases, h₂.writes.trans h₁.writes⟩

/-- A range inside the memory is read as it is. -/
theorem read_inside {a n : ℕ} (h : a + n ≤ e.memory.size) :
    ∃ bytes : Vector UInt8 n, (read a n e).result = .ok bytes ∧
      bytes.toArray = Image.slice e.memory ⟨a, n⟩ := by
  unfold read
  rw [dif_pos h]
  exact ⟨_, rfl, rfl⟩

theorem read_untouched (a n : ℕ) (e : Emulator) : e.Untouched (read a n e).device := by
  unfold read
  split
  · refine ⟨rfl, rfl, rfl, ?_, ?_⟩
    · show Array.countP _ (Array.push _ _) = _
      rw [Array.countP_push]
      rfl
    · show Array.countP _ (Array.push _ _) = _
      rw [Array.countP_push]
      rfl
  · exact Untouched.refl e

/-- What reading keeps is kept by dry runs and checks of access, which do nothing to the chip. -/
theorem readsKeep_of_read {I : Emulator → Prop} (h : ∀ a n e, I e → I (read a n e).device) :
    device.ReadsKeep I where
  read := h
  dryRun _ _ _ _ hI := hI
  access _ _ _ hI := hI

/-- **Reading leaves memory and faults alone.** -/
theorem readsKeep_untouched (e : Emulator) : device.ReadsKeep e.Untouched :=
  readsKeep_of_read fun a n e' h => h.trans (read_untouched a n e')

/-! ## What nothing changes -/

/-- The same configuration, and a memory of the same size. -/
structure Alike (e e' : Emulator) : Prop where
  config : e'.config = e.config
  size : e'.memory.size = e.memory.size

theorem Alike.refl (e : Emulator) : e.Alike e := ⟨rfl, rfl⟩

theorem Alike.trans (h₁ : e.Alike e₁) (h₂ : e₁.Alike e₂) : e.Alike e₂ :=
  ⟨h₂.config.trans h₁.config, h₂.size.trans h₁.size⟩

theorem Untouched.alike (h : e.Untouched e') : e.Alike e' :=
  ⟨h.config, congrArg Array.size h.memory⟩

theorem CarriedOut.alike {cells : Image} {o : Operation} (h : e.CarriedOut e' s cells o) :
    e.Alike e' := by
  refine ⟨h.config, ?_⟩
  rw [h.memory, size_stick, Image.size_overlay]

theorem write_alike (a : ℕ) (data : Image) (e : Emulator) : e.Alike (write a data e).device := by
  cases h : e.checkWrite a data.size with
  | error err => rw [write_refused h]; exact Alike.refl e
  | ok _ => exact (write_carriedOut h).1.alike

theorem erase_alike (function a n : ℕ) (e : Emulator) :
    e.Alike (erase function a n e).device := by
  cases h : e.checkErase function a n with
  | error err => rw [erase_refused h]; exact Alike.refl e
  | ok _ => exact (erase_carriedOut h).1.alike

/-- **No operation changes what is emulated.** -/
theorem keeps_alike (e : Emulator) : device.Keeps e.Alike where
  toReadsKeep := readsKeep_of_read fun a n e' h => h.trans (read_untouched a n e').alike
  write a data e' h := h.trans (write_alike a data e')
  erase f a n e' h := h.trans (erase_alike f a n e')

/-! ## The busy flag -/

/-- The chip is busy for good only if an address is configured that makes it so. A chip that was
made stays like this, whatever is asked of it (`states_withData`). -/
def StuckByAddress (e : Emulator) : Prop := e.stuckBusy = true → e.config.stuckBusyAt ≠ none

/-- It is so for a new chip, whatever it holds. -/
theorem stuckByAddress_withData (c : EmulatorConfig) (data : Image) :
    (withData c data).StuckByAddress := fun h => by cases h

theorem CarriedOut.stuckByAddress {cells : Image} {o : Operation} (h : e.CarriedOut e' s cells o)
    (he : e.StuckByAddress) : e'.StuckByAddress := by
  intro hstuck hnone
  rw [h.config] at hnone
  rw [h.stuckBusy, hnone, Option.any_none, Bool.or_false] at hstuck
  exact he hstuck hnone

/-- **No operation makes the chip busy for good** without such an address. -/
theorem keeps_stuckByAddress : device.Keeps StuckByAddress := by
  refine ⟨readsKeep_of_read fun a n e h => ?_, fun a data e h => ?_, fun f a n e h => ?_⟩
  · have hu := read_untouched a n e
    unfold StuckByAddress
    rwa [hu.stuckBusy, hu.config]
  · show (write a data e).device.StuckByAddress
    cases hcheck : e.checkWrite a data.size with
    | error err => rwa [write_refused hcheck]
    | ok _ => exact (write_carriedOut hcheck).1.stuckByAddress h
  · show (erase f a n e).device.StuckByAddress
    cases hcheck : e.checkErase f a n with
    | error err => rwa [erase_refused hcheck]
    | ok _ => exact (erase_carriedOut hcheck).1.stuckByAddress h

end Reflash.Emulator
