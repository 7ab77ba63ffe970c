import Reflash.Proofs.Emulator.Footprint
import Reflash.Proofs.Requests

/-!
# Protected bytes are immune

An erase or a write that reaches into a protected range is refused as a whole, and one that
is not changes no byte outside its span, also where bits are stuck or the chip is late. So
no request ever changes a protected byte, however ranges overlap or lie across blocks.

* `Immune.perform`: one erase or write, whatever comes of it.
* `keeps_immune`: every operation of the emulated chip.
* `protected_immune`: every sequence of requests, after each of them.
-/

namespace Reflash.Emulator

variable {e dev dev' : Emulator}

/-- What is protected in `e` holds in `dev` what it holds in `e`. -/
structure Immune (e dev : Emulator) : Prop where
  alike : e.Alike dev
  kept : ∀ r ∈ e.config.protectedRanges, ∀ a ∈ r, dev.memory.byte a = e.memory.byte a

theorem Immune.refl (e : Emulator) : e.Immune e := ⟨Alike.refl e, fun _ _ _ _ => rfl⟩

theorem Immune.untouched (h : e.Immune dev) (hu : dev.Untouched dev') : e.Immune dev' := by
  refine ⟨h.alike.trans hu.alike, fun r hr a ha => ?_⟩
  rw [hu.memory]
  exact h.kept r hr a ha

/-- **An erase or a write** changes no protected byte, whether it is refused or carried out. -/
theorem Immune.perform (hlimit : e.memory.size ≤ addressLimit) (h : e.Immune dev) (c : Command) :
    e.Immune (device.perform c dev).device := by
  refine ⟨h.alike.trans (perform_alike c dev), fun r hr a ha => ?_⟩
  rw [← h.kept r hr a ha]
  cases hcheck : dev.check c with
  | error err => rw [perform_refused hcheck]; rfl
  | ok _ =>
    -- a command that is not refused has no protected address in its span
    have hsize : dev.memory.size ≤ addressLimit := h.alike.size.symm ▸ hlimit
    have hprotected : r ∈ dev.config.protectedRanges := h.alike.config.symm ▸ hr
    exact byte_perform (not_mem_span_of_accepts hsize (accepts_iff.2 hcheck) hprotected ha)

/-- **Every operation of the chip** leaves protected bytes alone. -/
theorem keeps_immune (hlimit : e.memory.size ≤ addressLimit) : device.Keeps e.Immune where
  toReadsKeep := readsKeep_of_read fun a n dev h => h.untouched (read_untouched a n dev)
  write a data _ h := h.perform hlimit (.write a data)
  erase f a n _ h := h.perform hlimit (.erase f a n)

/-- **Write protection is never breached.** On an emulated chip that fits into the address space,
whatever is protected and whatever other faults it has, let there be any sequence of requests with
any arguments. After each of them, whatever it came to, every byte in a protected range holds what
it held before the first one. -/
theorem protected_immune (s : Session Emulator) (hlimit : s.device.memory.size ≤ addressLimit)
    (rs : List Request) : ∀ t ∈ Request.states device s rs,
      ∀ r ∈ s.device.config.protectedRanges, ∀ a ∈ r,
        t.device.memory.byte a = s.device.memory.byte a :=
  fun t ht => (Request.states_keep (keeps_immune hlimit) (Immune.refl s.device) rs t ht).kept

/-- A small chip with protected ranges that overlap and that end inside blocks and behind the
memory, with bits stuck inside and beside them, and an address that keeps it busy for good. -/
def walled : Emulator where
  config :=
    { chip := Chip.small, protectedRanges := [⟨1, 3⟩, ⟨2, 3⟩, ⟨7, 12⟩],
      stuckBits := [(1, 255), (3, 1), (7, 1)], busyPolls := 2, stuckBusyAt := some 3 }
  memory := #[9, 9, 9, 9, 9, 9, 9, 9]

/-- Of these requests the second one and the erase of the chip are refused, the others change what
is beside the protected ranges, and the last one leaves the chip busy for good. -/
theorem protected_immune_walled : ∃ t ∈ Request.states device ⟨walled, #[], #[]⟩
      [.write 0 #[1], .write 0 #[0, 0], .writeImage Chip.small #[1, 9, 9, 9, 2, 9, 9, 9] {},
        .eraseImage Chip.small { policy := { accessDenied := .abort } }, .write 3 #[9]],
    t.device.memory = #[1, 9, 9, 8, 2, 9, 9, 9] ∧ t.device.stuckBusy = true ∧
    ∀ r ∈ walled.config.protectedRanges, ∀ a ∈ r,
      t.device.memory.byte a = walled.memory.byte a := by
  have hlast := List.getLast_mem (l := Request.states device ⟨walled, #[], #[]⟩
    [.write 0 #[1], .write 0 #[0, 0], .writeImage Chip.small #[1, 9, 9, 9, 2, 9, 9, 9] {},
      .eraseImage Chip.small { policy := { accessDenied := .abort } }, .write 3 #[9]])
    Request.states_ne_nil
  exact ⟨_, hlast, by decide +kernel, by decide +kernel,
    protected_immune ⟨walled, #[], #[]⟩ (by decide) _ _ hlast⟩

end Reflash.Emulator
