import Reflash.Proofs.Emulator.Atomicity

/-!
# Writes accumulate

A write only moves bits away from their erased value. If no bit is stuck, what a byte has
collected from several writes is the union of what each of them moves there. So neither their
order nor a repetition makes a difference, and which of them are refused does not depend on the
others. Nothing but an erase takes back what was moved.

* `moved_perform`: what one command does to the bits of a byte.
* `moved_writeAll`: what a list of writes does.
* `keeps_retains`: nothing is lost without an erase.
* `writes_accumulate`: order, repetition, and any sequence of requests.
-/

namespace Reflash

/-- The bits of a byte that have left their erased value. -/
def Chip.moved (chip : Chip) (cell : UInt8) : UInt8 := cell ^^^ chip.erasedValue

/-- The operation erases the byte at the address. -/
def Operation.Erases (a : ℕ) : Operation → Prop
  | erase _ address len => a ∈ (⟨address, len⟩ : Span)
  | _ => False

/-- Data that is written from an address on. -/
structure Write where
  address : ℕ
  data : Image

namespace Write

/-- The command that writes the data. -/
def command (w : Write) : Command := .write w.address w.data

/-- The bits that the write moves at an address: those in which its byte there is not an erased
one. -/
def marks (chip : Chip) (a : ℕ) (w : Write) : UInt8 :=
  if a ∈ w.command.span then chip.moved (w.data.byte (a - w.address)) else 0

end Write

variable {chip : Chip} {x y : UInt8} {a : ℕ} {w : Write} {ws ws' : List Write}

namespace Chip

theorem moved_inj : chip.moved x = chip.moved y ↔ x = y := UInt8.xor_left_inj chip.erasedValue

/-- **Programming a byte** moves the bits that differ from the erased ones, and keeps those that have
been moved. -/
theorem moved_programByte (x y : UInt8) :
    chip.moved (programByte chip.erasedValue x y) = chip.moved x ||| chip.moved y := by
  unfold moved programByte
  rw [UInt8.xor_comm (chip.erasedValue ^^^ _), ← UInt8.xor_assoc, UInt8.xor_self, UInt8.zero_xor,
    UInt8.xor_comm x, UInt8.xor_comm y]

end Chip

namespace Emulator

variable {e dev dev' : Emulator}

/-- The chip after the writes, whatever came of each of them. -/
def writeAll (e : Emulator) (ws : List Write) : Emulator :=
  ws.foldl (fun e w => (device.write w.address w.data e).device) e

/-- The bits that the writes move at an address, all of those together that are not refused. -/
def marks (e : Emulator) (ws : List Write) (a : ℕ) : UInt8 :=
  ((ws.filter fun w => e.accepts w.command).map (Write.marks e.config.chip a)).foldr (· ||| ·) 0

/-! ## What is moved by writes -/

theorem accepts_congr (h : e.Alike dev) (c : Command) : dev.accepts c = e.accepts c := by
  unfold accepts
  rw [check_congr h]

theorem marks_congr (h : e.Alike dev) : dev.marks ws a = e.marks ws a := by
  unfold marks
  simp only [accepts_congr h, h.config]

theorem marks_cons : e.marks (w :: ws) a =
    (if e.accepts w.command then w.marks e.config.chip a else 0) ||| e.marks ws a := by
  unfold marks
  rw [List.filter_cons]
  split
  · rw [List.map_cons, List.foldr_cons]
  · rw [UInt8.zero_or]

/-- The order of the writes makes no difference. -/
theorem marks_perm (h : ws.Perm ws') : e.marks ws a = e.marks ws' a :=
  ((h.filter _).map _).foldr_eq 0

/-- A write that is one of them adds nothing when it is repeated. -/
theorem marks_repeat (h : w ∈ ws) : e.marks (ws ++ [w]) a = e.marks ws a := by
  obtain ⟨front, back, rfl⟩ := List.append_of_mem h
  have hfirst : e.marks (front ++ w :: back) a = e.marks (w :: (front ++ back)) a :=
    marks_perm List.perm_middle
  have hlast : e.marks (front ++ w :: back ++ [w]) a = e.marks (w :: (front ++ w :: back)) a :=
    marks_perm (List.perm_append_singleton w _)
  rw [hlast, marks_cons, hfirst, marks_cons, ← UInt8.or_assoc, UInt8.or_self]

/-- **One write**: the bits that it moves are added to those that have been moved, unless it is
refused. -/
theorem moved_write (hg : e.config.chip.granularity ≠ .byteImplicitErase)
    (hstuck : e.config.stuckBits = []) (w : Write) (a : ℕ) :
    e.config.chip.moved ((device.perform w.command e).device.memory.byte a) =
      e.config.chip.moved (e.memory.byte a) |||
        if e.accepts w.command then w.marks e.config.chip a else 0 := by
  cases hcheck : e.check w.command with
  | error err =>
    have hrefused : ¬e.accepts w.command = true := by simp [accepts_iff, hcheck]
    rw [perform_refused hcheck, if_neg hrefused, UInt8.or_zero]
    rfl
  | ok _ =>
    have hin : w.command.span.stop ≤ e.memory.size := (check_eq_ok_iff.1 hcheck).inside
    have hmemory : (device.perform w.command e).device.memory =
        w.command.apply e.config.chip e.memory := (perform_accepted hstuck hcheck).1.memory
    rw [hmemory, if_pos (accepts_iff.2 hcheck), Write.marks]
    by_cases ha : a ∈ w.command.span
    · have hbyte : (w.command.apply e.config.chip e.memory).byte a =
          programmedByte e.config.chip (e.memory.byte a) (w.data.byte (a - w.address)) :=
        Command.byte_write (ha.2.trans_le hin) ha.1 ha.2
      rw [if_pos ha, hbyte, programmedByte, if_neg hg, Chip.moved_programByte]
    · rw [if_neg ha, Command.byte_apply ha, UInt8.or_zero]

theorem writeAll_alike (ws : List Write) (e : Emulator) : e.Alike (e.writeAll ws) := by
  induction ws generalizing e with
  | nil => exact Alike.refl e
  | cons w ws ih =>
    have hfirst : e.Alike (device.perform w.command e).device := perform_alike w.command e
    exact hfirst.trans (ih _)

/-- **Many writes**: the bits of a byte that have been moved are those that had been moved before and
those that the writes move there. -/
theorem moved_writeAll (hg : e.config.chip.granularity ≠ .byteImplicitErase)
    (hstuck : e.config.stuckBits = []) (ws : List Write) (a : ℕ) :
    e.config.chip.moved ((e.writeAll ws).memory.byte a) =
      e.config.chip.moved (e.memory.byte a) ||| e.marks ws a := by
  induction ws generalizing e with
  | nil => exact UInt8.or_zero.symm
  | cons w ws ih =>
    have hfirst : e.Alike (device.perform w.command e).device := perform_alike w.command e
    have hrest := ih (e := (device.perform w.command e).device) (hfirst.config ▸ hg)
      (hfirst.config ▸ hstuck)
    rw [hfirst.config, moved_write hg hstuck, marks_congr hfirst, UInt8.or_assoc,
      ← marks_cons] at hrest
    exact hrest

/-- Writes that move the same bits leave the same memory. -/
theorem writeAll_eq (hg : e.config.chip.granularity ≠ .byteImplicitErase)
    (hstuck : e.config.stuckBits = []) (h : ∀ a, e.marks ws a = e.marks ws' a) :
    (e.writeAll ws).memory = (e.writeAll ws').memory := by
  have hsize : (e.writeAll ws).memory.size = (e.writeAll ws').memory.size :=
    (writeAll_alike ws e).size.trans (writeAll_alike ws' e).size.symm
  refine Image.ext_byte hsize fun a _ => ?_
  apply Chip.moved_inj.1
  rw [moved_writeAll hg hstuck, moved_writeAll hg hstuck, h a]

/-! ## What is not lost -/

/-- From `e` to `dev`, more operations were recorded, and a byte that none of them erased still has
all bits moved that it had. -/
structure Retains (e dev : Emulator) : Prop where
  alike : e.Alike dev
  recorded : ∃ ops, dev.operations = e.operations ++ ops ∧ ∀ a, (∀ o ∈ ops, ¬o.Erases a) →
    e.config.chip.moved (e.memory.byte a) ||| e.config.chip.moved (dev.memory.byte a) =
      e.config.chip.moved (dev.memory.byte a)

theorem Retains.refl (e : Emulator) : e.Retains e :=
  ⟨Alike.refl e, #[], Array.append_empty.symm, fun _ _ => UInt8.or_self⟩

/-- One more operation. -/
theorem Retains.push (h : e.Retains dev) (o : Operation) (halike : dev.Alike dev')
    (hpush : dev'.operations = dev.operations.push o)
    (hbits : ∀ a, ¬o.Erases a →
      dev.config.chip.moved (dev.memory.byte a) ||| dev.config.chip.moved (dev'.memory.byte a) =
        dev.config.chip.moved (dev'.memory.byte a)) : e.Retains dev' := by
  obtain ⟨ops, hops, hkept⟩ := h.recorded
  refine ⟨h.alike.trans halike, ops.push o, ?_, fun a hnone => ?_⟩
  · rw [hpush, hops, Array.push_append]
  · have hlast := hbits a (hnone o Array.mem_push_self)
    have hbefore := hkept a fun o' ho' => hnone o' (Array.mem_push_of_mem o ho')
    rw [h.alike.config] at hlast
    rw [← hlast, ← UInt8.or_assoc, hbefore]

/-- **An erase or a write**, whether it is refused or carried out. -/
theorem Retains.perform (hg : e.config.chip.granularity ≠ .byteImplicitErase)
    (hstuck : e.config.stuckBits = []) (h : e.Retains dev) (c : Command) :
    e.Retains (device.perform c dev).device := by
  cases hcheck : dev.check c with
  | error err =>
    rw [perform_refused hcheck]
    exact h
  | ok _ =>
    have hpush := (perform_done hcheck).1.operations
    refine h.push c.record (perform_alike c dev) hpush fun a hnone => ?_
    cases c with
    | erase f address len => rw [byte_perform hnone, UInt8.or_self]
    | write address data =>
      have hadds := moved_write (h.alike.config ▸ hg) (h.alike.config ▸ hstuck) ⟨address, data⟩ a
      rw [Write.command] at hadds
      rw [hadds, ← UInt8.or_assoc, UInt8.or_self]

/-- **No operation of the chip** takes back what was moved, except for an erase. -/
theorem keeps_retains (hg : e.config.chip.granularity ≠ .byteImplicitErase)
    (hstuck : e.config.stuckBits = []) : device.Keeps e.Retains where
  toReadsKeep := by
    refine readsKeep_of_read fun a n dev h => ?_
    unfold read
    split
    · exact h.push (.read a n) ⟨rfl, rfl⟩ rfl fun _ _ => UInt8.or_self
    · exact h
  write a data _ h := h.perform hg hstuck (.write a data)
  erase f a n _ h := h.perform hg hstuck (.erase f a n)

/-- **Writes accumulate.** On an emulated chip that does not erase on its own and has no stuck bits,
whatever its erased value is and what else is wrong with it, let there be any writes, wherever they
go and however they overlap. Which of them are refused does not depend on the others. The bits of a
byte that differ from the erased value are in the end those that did at first and those in which one
of the bytes written there does, by a write that is not refused. So the memory is the same for every
order of the writes, and for a repetition of any of them. In any sequence of requests, the bits of a
byte that differ from the erased value still do so as long as the byte is not erased. -/
theorem writes_accumulate (hg : e.config.chip.granularity ≠ .byteImplicitErase)
    (hstuck : e.config.stuckBits = []) :
    (∀ (ws : List Write) (w : Write), (∃ err, (device.write w.address w.data (e.writeAll ws)).result =
      .error err ∧ err ≠ .timeout) ↔ e.accepts w.command = false) ∧
    (∀ ws a, e.config.chip.moved ((e.writeAll ws).memory.byte a) =
      e.config.chip.moved (e.memory.byte a) ||| e.marks ws a) ∧
    (∀ ws ws' : List Write, ws.Perm ws' → (e.writeAll ws).memory = (e.writeAll ws').memory) ∧
    (∀ ws, ∀ w ∈ ws, (e.writeAll (ws ++ [w])).memory = (e.writeAll ws).memory) ∧
    ∀ log events rs, ∀ t ∈ Request.states device ⟨e, log, events⟩ rs, ∃ ops,
      t.device.operations = e.operations ++ ops ∧ ∀ a, (∀ o ∈ ops, ¬o.Erases a) →
        e.config.chip.moved (e.memory.byte a) ||| e.config.chip.moved (t.device.memory.byte a) =
          e.config.chip.moved (t.device.memory.byte a) := by
  refine ⟨fun ws w => ?_, fun ws a => moved_writeAll hg hstuck ws a, fun ws ws' hperm => ?_,
    fun ws w hw => ?_, fun log events rs t ht => ?_⟩
  · have hrefused := (perform_atomic (e.writeAll ws) w.command).2
    have haccepts := accepts_congr (writeAll_alike ws e) w.command
    rw [← check_eq_ok_iff, ← accepts_iff, haccepts, Bool.not_eq_true] at hrefused
    exact hrefused
  · exact writeAll_eq hg hstuck fun _ => marks_perm hperm
  · exact writeAll_eq hg hstuck fun _ => marks_repeat hw
  · exact (Request.states_keep (keeps_retains hg hstuck) (Retains.refl e) rs t ht).recorded

/-- A small chip that is erased to zero, with a protected byte. -/
def inverted : Emulator where
  config := { chip := { Chip.small with erasedValue := 0 }, protectedRanges := [⟨6, 7⟩] }
  memory := #[0, 1, 0, 0, 0, 0, 0, 0]

/-- Two writes overlap and a third one is refused. In every order, bits are only set. -/
theorem writes_accumulate_inverted :
    inverted.config.chip.granularity ≠ .byteImplicitErase ∧ inverted.config.stuckBits = [] ∧
    inverted.accepts (.write 5 #[1, 1]) = false ∧
    ∀ ws, ws.Perm [⟨0, #[4, 2]⟩, ⟨1, #[8, 8]⟩, ⟨5, #[1, 1]⟩] →
      (inverted.writeAll ws).memory = #[4, 11, 8, 0, 0, 0, 0, 0] := by
  have hall := writes_accumulate (e := inverted) (by decide) rfl
  refine ⟨by decide, rfl, by decide, fun ws hperm => ?_⟩
  rw [hall.2.2.1 ws _ hperm]
  decide +kernel

end Emulator

end Reflash
