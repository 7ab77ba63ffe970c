import Reflash.Proofs.Emulator.Immunity
import Reflash.Proofs.Emulator.RoundTrip

/-!
# Operations are atomic

An operation of an emulated chip that is refused has done nothing, and neither has it been
recorded. Any other one has been recorded once and has its full effect, without the bits
that are stuck, also if it is reported as a timeout. What is refused is decided by the
arguments and the configuration (`Emulator.Permits`). How long the chip was busy before
makes no difference, unless it is busy for good.

* `check_eq_ok_iff`: the commands that are not refused.
* `perform_late_iff`: the commands that time out.
* `read_atomic`, `perform_atomic`: reads, and erases and writes.
* `operations_atomic`: every operation in every state.
-/

namespace Reflash

variable {e : Emulator} {c : Command} {a n : ℕ}

/-- What the command makes of a byte `cell` at address `a` of its span if no bit is stuck. -/
def Command.effect (chip : Chip) (cell : UInt8) (a : ℕ) : Command → UInt8
  | erase _ _ _ => chip.erasedValue
  | write address data => programmedByte chip cell (data.byte (a - address))

namespace Emulator

/-! ## What is refused -/

/-- An erase is one of a single block of a usable function that is not restricted. -/
def Fits (config : EmulatorConfig) : Command → Prop
  | .write _ _ => True
  | .erase function address len => function ∉ config.restricted ∧
      ∃ f, config.chip.eraseFunctions[function]? = some f ∧ f.usable = true ∧ 0 < len ∧
        f.blockSizeAt? address = some len ∧ len ∣ address

/-- Nothing speaks against the command: it is inside the memory, no protected range reaches into
it, and an erase is one of a block. -/
structure Permits (e : Emulator) (c : Command) : Prop where
  fits : Fits e.config c
  inside : c.span.stop ≤ e.memory.size
  unprotected : ∀ r ∈ e.config.protectedRanges,
    ¬(c.span.start < r.stop ∧ r.start < min c.span.stop addressLimit)

theorem access_eq_ok_iff {config : EmulatorConfig} : access config a n = .ok () ↔
    ∀ r ∈ config.protectedRanges, ¬(a < r.stop ∧ r.start < min (a + n) addressLimit) := by
  have hany : (config.protectedRanges.any fun r => r.meets a (min (a + n) addressLimit)) = true ↔
      ∃ r ∈ config.protectedRanges, a < r.stop ∧ r.start < min (a + n) addressLimit := by
    simp only [List.any_eq_true, AddressRange.meets, Bool.and_eq_true, decide_eq_true_eq]
  unfold access
  dsimp only
  split
  · rename_i hmeets
    obtain ⟨r, hr, hmeets⟩ := hany.1 hmeets
    exact iff_of_false (fun h => by cases h) fun h => h r hr hmeets
  · rename_i hapart
    exact iff_of_true rfl fun r hr hmeets => hapart (hany.2 ⟨r, hr, hmeets⟩)

theorem checkWrite_eq_ok_iff : e.checkWrite a n = .ok () ↔
    a + n ≤ e.memory.size ∧ access e.config a n = .ok () := by
  by_cases h : a + n ≤ e.memory.size
  · simp [checkWrite_inside h, h]
  · have hout : e.checkWrite a n = .error .outOfBounds := by
      unfold checkWrite inside
      rw [if_neg h]
      rfl
    simp [hout, h]

theorem eraseFunction_eq_ok_iff {config : EmulatorConfig} {i : ℕ} {f : EraseFunction} :
    eraseFunction config i = .ok f ↔
      i ∉ config.restricted ∧ config.chip.eraseFunctions[i]? = some f ∧ f.usable = true := by
  constructor
  · intro h
    refine ⟨not_mem_restricted h, ?_⟩
    unfold eraseFunction at h
    split at h
    · rename_i g hget
      split at h
      · cases h
      · rename_i hfree
        cases h
        simp_all
    · cases h
  · rintro ⟨hfree, hget, husable⟩
    exact eraseFunction_ok hget husable hfree

theorem checkErase_eq_ok_iff {function : ℕ} : e.checkErase function a n = .ok () ↔
    Fits e.config (.erase function a n) ∧ e.checkWrite a n = .ok () := by
  rw [checkErase_eq, Fits]
  cases hf : eraseFunction e.config function with
  | error err =>
    have hnone : ∀ f, ¬(function ∉ e.config.restricted ∧
        e.config.chip.eraseFunctions[function]? = some f ∧ f.usable = true) := by
      intro f hok
      rw [eraseFunction_eq_ok_iff.2 hok] at hf
      cases hf
    simp only [Except.bind]
    refine iff_of_false (by simp) ?_
    rintro ⟨⟨hfree, f, hget, husable, -⟩, -⟩
    exact hnone f ⟨hfree, hget, husable⟩
  | ok f =>
    obtain ⟨hfree, hget, husable⟩ := eraseFunction_eq_ok_iff.1 hf
    have hblock : (n = 0 ∨ f.blockSizeAt? a ≠ some n ∨ a % n ≠ 0) ↔
        ¬(0 < n ∧ f.blockSizeAt? a = some n ∧ n ∣ a) := by
      rw [Nat.dvd_iff_mod_eq_zero, Nat.pos_iff_ne_zero]
      tauto
    simp only [Except.bind, hblock]
    split
    · simp_all
    · simp_all

/-- **A command is permitted exactly if nothing speaks against it.** -/
theorem check_eq_ok_iff : e.check c = .ok () ↔ e.Permits c := by
  have hparts : e.Permits c ↔ Fits e.config c ∧ e.checkWrite c.span.start c.span.len = .ok () := by
    rw [checkWrite_eq_ok_iff, access_eq_ok_iff]
    exact ⟨fun h => ⟨h.fits, h.inside, h.unprotected⟩, fun h => ⟨h.1, h.2.1, h.2.2⟩⟩
  rw [hparts]
  cases c with
  | write address data => simp [check, Fits, Command.span]
  | erase function address len => exact checkErase_eq_ok_iff

/-- A command is not refused for being late. -/
theorem check_ne_timeout : e.check c ≠ .error .timeout := by
  have hwrite : ∀ {a n : ℕ}, e.checkWrite a n ≠ .error .timeout := by
    intro a n h
    unfold checkWrite inside access at h
    split at h
    · dsimp only [bind, Except.bind] at h
      split at h <;> cases h
    · cases h
  cases c with
  | write address data => exact hwrite
  | erase function address len =>
    intro h
    have herase : e.checkErase function address len = .error .timeout := h
    rw [checkErase_eq] at herase
    cases hf : eraseFunction e.config function with
    | error err =>
      rw [hf] at herase
      cases herase
      cases eraseFunction_error hf
    | ok f =>
      rw [hf, Except.bind] at herase
      split at herase
      · cases herase
      · exact hwrite herase

/-! ## What is done -/

/-- From `e` to `e'`, the operation `o` was recorded, and `after` is what it left at the addresses of
`t`, outside of which nothing changed. -/
structure Done (e : Emulator) (o : Operation) (t : Span) (after : ℕ → UInt8) (e' : Emulator) :
    Prop where
  recorded : e'.operations = e.operations.push o
  size : e'.memory.size = e.memory.size
  inside : ∀ a ∈ t, e'.memory.byte a = after a
  outside : ∀ a, a ∉ t → e'.memory.byte a = e.memory.byte a

/-- The reply of the chip is an error other than a timeout and nothing has happened at all, or the
operation is done. -/
structure Atomic {α : Type} (e : Emulator) (o : Operation) (t : Span) (after : ℕ → UInt8)
    (r : Reply Emulator α) : Prop where
  refused : ∀ err, r.result = .error err → err ≠ .timeout → r.device = e
  done : (∃ x, r.result = .ok x) ∨ r.result = .error .timeout → e.Done o t after r.device

/-- The chip does not become ready in time: it is busy for good, or will be because of an address of
the command, or it is busy for as many polls as it is given. -/
def Stalls (e : Emulator) (c : Command) : Prop :=
  e.stuckBusy = true ∨ (∃ a ∈ c.span, e.config.stuckBusyAt = some a) ∨
    c.patience ≤ e.config.busyPolls

/-- **A permitted command times out exactly if the chip stalls**, and otherwise succeeds. -/
theorem perform_late_iff (h : e.Permits c) :
    ((device.perform c e).result = .ok () ∨ (device.perform c e).result = .error .timeout) ∧
      ((device.perform c e).result = .error .timeout ↔ e.Stalls c) := by
  obtain ⟨hcarried, hresult⟩ := perform_done (check_eq_ok_iff.2 h)
  have hstuck : (device.perform c e).device.stuckBusy = true ↔
      e.stuckBusy = true ∨ ∃ a ∈ c.span, e.config.stuckBusyAt = some a := by
    rw [hcarried.stuckBusy, Bool.or_eq_true, Option.any_eq_true]
    simp only [decide_eq_true_eq, and_comm]
  have hlate : ((device.perform c e).device.stuckBusy = true ∨ c.patience ≤ e.config.busyPolls) ↔
      e.Stalls c := by
    rw [hstuck, or_assoc]
    rfl
  rw [hresult, ← hlate]
  split <;> simp_all

/-- What a command puts at an address of its span. -/
theorem byte_cells (hin : c.span.stop ≤ e.memory.size) (ha : a ∈ c.span) :
    (e.cells c).byte (a - c.span.start) =
      c.effect e.config.chip (e.memory.byte a) a := by
  obtain ⟨h1, h2⟩ := Span.mem_def.1 ha
  cases c with
  | erase function address len =>
    have hlt : a - address < len := by simp only [Command.span] at h1 h2; omega
    exact Image.byte_blank hlt
  | write address data =>
    simp only [Command.span, Span.stop] at h1 h2 hin ⊢
    have hlt : a - address < data.size := by omega
    have hsize : (Image.slice e.memory ⟨address, data.size⟩).size = data.size :=
      Image.size_slice hin
    have hback : address + (a - address) = a := by omega
    rw [cells, byte_programmed (by omega) hlt, Image.byte_slice hlt, hback, Command.effect]

/-- **A command is atomic.** It is refused exactly if it is not permitted. -/
theorem perform_atomic (e : Emulator) (c : Command) :
    e.Atomic c.record c.span (fun a => e.stored a (c.effect e.config.chip (e.memory.byte a) a))
      (device.perform c e) ∧
    ((∃ err, (device.perform c e).result = .error err ∧ err ≠ .timeout) ↔ ¬e.Permits c) := by
  cases hcheck : e.check c with
  | error err =>
    have hne : err ≠ .timeout := by
      rintro rfl
      exact check_ne_timeout hcheck
    have hno : ¬e.Permits c := by
      intro h
      rw [check_eq_ok_iff.2 h] at hcheck
      cases hcheck
    rw [perform_refused hcheck]
    refine ⟨⟨fun _ _ _ => rfl, ?_⟩, iff_of_true ⟨err, rfl, hne⟩ hno⟩
    rintro (⟨x, hx⟩ | hlate)
    · cases hx
    · cases hlate
      exact absurd rfl hne
  | ok _ =>
    have hpermits := check_eq_ok_iff.1 hcheck
    have hin := hpermits.inside
    obtain ⟨hends, -⟩ := perform_late_iff hpermits
    obtain ⟨hcarried, -⟩ := perform_done hcheck
    have hbyte := hcarried.byte (size_cells hin) hin
    have hnot : ¬∃ err, (device.perform c e).result = .error err ∧ err ≠ .timeout := by
      rintro ⟨err, herr, hne⟩
      rcases hends with hok | hlate
      · rw [hok] at herr
        cases herr
      · rw [hlate] at herr
        cases herr
        exact hne rfl
    refine ⟨⟨fun err herr hne => absurd ⟨err, herr, hne⟩ hnot, fun _ => ?_⟩,
      iff_of_false hnot (not_not_intro hpermits)⟩
    refine ⟨hcarried.operations, hcarried.alike.size, fun a ha => ?_, fun a ha => ?_⟩
    · rw [hbyte a, if_pos ha, byte_cells hin ha]
    · rw [hbyte a, if_neg ha]

/-- **A read is atomic.** It is refused exactly if the range is not inside the memory, and never
changes the memory. -/
theorem read_atomic (e : Emulator) (a n : ℕ) :
    e.Atomic (.read a n) ⟨a, n⟩ e.memory.byte (device.read a n e) ∧
    (device.read a n e).device.memory = e.memory ∧
    ((∃ bytes, (device.read a n e).result = .ok bytes) ↔ a + n ≤ e.memory.size) ∧
    ∀ bytes, (device.read a n e).result = .ok bytes →
      bytes.toArray = Image.slice e.memory ⟨a, n⟩ := by
  by_cases h : a + n ≤ e.memory.size
  · have hsize : (Image.slice e.memory ⟨a, n⟩).size = n := Image.size_slice h
    have hrun : device.read a n e = .quiet (.ok ⟨Image.slice e.memory ⟨a, n⟩, hsize⟩)
        { e with operations := e.operations.push (.read a n) } := dif_pos h
    rw [hrun]
    have hdone : e.Done (.read a n) ⟨a, n⟩ e.memory.byte
        { e with operations := e.operations.push (.read a n) } :=
      ⟨rfl, rfl, fun _ _ => rfl, fun _ _ => rfl⟩
    refine ⟨⟨fun err herr => ?_, fun _ => hdone⟩, rfl, iff_of_true ⟨_, rfl⟩ h, fun bytes hok => ?_⟩
    · cases herr
    · cases hok
      rfl
  · have hrun : device.read a n e = .quiet (.error .outOfBounds) e := dif_neg h
    rw [hrun]
    refine ⟨⟨fun _ _ _ => rfl, ?_⟩, rfl, iff_of_false ?_ h, fun _ hok => by cases hok⟩
    · rintro (⟨x, hx⟩ | hlate)
      · cases hx
      · cases hlate
    · rintro ⟨bytes, hok⟩
      cases hok

/-- **Every operation of an emulated chip is atomic**, in every state and with every configuration.
A read, an erase or a write that ends with an error other than a timeout leaves the whole state as
it is. Any other one is recorded once. A read then returns the bytes of the range and never changes
the memory. After an erase every byte of the range is the erased one, and after a write what is
programmed or overwritten there, in both cases without the bits that are stuck, and no other byte has
changed. A command that nothing speaks against times out exactly if the chip stalls. -/
theorem operations_atomic (e : Emulator) :
    (∀ a n, e.Atomic (.read a n) ⟨a, n⟩ e.memory.byte (device.read a n e) ∧
      (device.read a n e).device.memory = e.memory ∧
      ((∃ bytes, (device.read a n e).result = .ok bytes) ↔ a + n ≤ e.memory.size) ∧
      ∀ bytes, (device.read a n e).result = .ok bytes →
        bytes.toArray = Image.slice e.memory ⟨a, n⟩) ∧
    ∀ c : Command,
      e.Atomic c.record c.span (fun a => e.stored a (c.effect e.config.chip (e.memory.byte a) a))
        (device.perform c e) ∧
      ((∃ err, (device.perform c e).result = .error err ∧ err ≠ .timeout) ↔ ¬e.Permits c) ∧
      (e.Permits c → ((device.perform c e).result = .error .timeout ↔ e.Stalls c)) := by
  refine ⟨read_atomic e, fun c => ?_⟩
  obtain ⟨hatomic, hrefused⟩ := perform_atomic e c
  exact ⟨hatomic, hrefused, fun h => (perform_late_iff h).2⟩

/-- A write that never ends has its effect, without the bit that is stuck. An erase of the block in
which it lies is refused. -/
theorem operations_atomic_walled :
    walled.Permits (.write 3 #[13]) ∧
    (device.perform (.write 3 #[13]) walled).result = .error .timeout ∧
    (device.perform (.write 3 #[13]) walled).device.operations = #[.write 3 1] ∧
    (device.perform (.write 3 #[13]) walled).device.memory.byte 3 = 8 ∧
    (device.perform (.erase 0 0 4) walled).result = .error (.accessDenied 0) ∧
    (device.perform (.erase 0 0 4) walled).device = walled := by
  have hall := (operations_atomic walled).2
  have hpermits : walled.Permits (.write 3 #[13]) := ⟨trivial, by decide, by decide⟩
  have hlate : (device.perform (.write 3 #[13]) walled).result = .error .timeout :=
    ((hall (.write 3 #[13])).2.2 hpermits).2 (.inr (.inl ⟨3, by decide, rfl⟩))
  have hdone := (hall (.write 3 #[13])).1.done (.inr hlate)
  have hdenied : (device.perform (.erase 0 0 4) walled).result = .error (.accessDenied 0) := rfl
  refine ⟨hpermits, hlate, hdone.recorded, ?_, hdenied,
    (hall (.erase 0 0 4)).1.refused _ hdenied nofun⟩
  rw [hdone.inside 3 (by decide)]
  decide

end Emulator

end Reflash
