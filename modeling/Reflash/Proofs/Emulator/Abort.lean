import Reflash.Proofs.Emulator.Course

/-!
# Executions that end early

An execution that treats denied access like any other failure ends with the first
command that fails. The blocks before it are done, those behind it are not begun, and
the block of the command is part way between its old and its new contents.

* `Midway.leftOff`: how the chip is left if no block was given up.
* `executePlan_aborted`: every execution of every plan that ends with an error.
-/

namespace Reflash.Emulator

variable {chip : Chip} {policy : Policy} {old new m : Image} {b : Block} {past rest : List Block}
  {e e' dev : Emulator} {plan : Plan} {s s' : Session Emulator}

/-- How a memory is left by an execution of the plan that ended in block `b`: the blocks before it are
as they should be, those behind it and everything outside the units are as they were, and every byte
of the block itself is old, new or erased. -/
structure LeftOff (plan : Plan) (erased : UInt8) (past : List Block) (b : Block)
    (rest : List Block) (m : Image) : Prop where
  blocks : plan.blocks = past ++ b :: rest
  done : ∀ c ∈ past, Image.Agree c.span m plan.new
  ahead : ∀ c ∈ rest, Image.Agree c.span m plan.old
  outside : ∀ a, (∀ u ∈ plan.units, a ∉ u.span) → m.byte a = plan.old.byte a
  inside : ∀ a ∈ b.span, m.byte a = plan.old.byte a ∨ m.byte a = plan.new.byte a ∨
    m.byte a = erased

/-- **If no block was given up**, the blocks behind are done, and a block that was begun has undergone
some of its commands. -/
theorem Midway.leftOff {current : Image} {stats : ExecutionStats} {α : Type}
    {r : Except ExecutionError α} (hbits : e.config.chip.BitsErased)
    (hstuck : e.config.stuckBits = []) (hold : plan.old = e.memory)
    (hsize : plan.new.size = e.memory.size) (hwell : plan.WellFormed plan.new.size)
    (hblocks : plan.blocks = past ++ b :: rest) (habort : policy.accessDenied = .abort)
    (h : e.Midway policy plan.new past dev current stats)
    (hruns : dev.Runs policy (e.commandsFor plan.new b) r e') :
    LeftOff plan e.config.chip.erasedValue past b rest e'.memory := by
  have hinside : ∀ c ∈ plan.blocks, c.start + c.size ≤ plan.new.size := fun c hc =>
    hwell.blocks_inside hc
  have hmember : ∀ {c}, c ∈ past ∨ c = b ∨ c ∈ rest → c ∈ plan.blocks := by
    intro c hc
    rw [hblocks]
    simpa using hc
  have hb := hinside b (hmember (.inr (.inl rfl)))
  -- no two of the blocks share an address
  have hdis := hwell.blocks_disjoint
  rw [hblocks] at hdis
  obtain ⟨-, htail, hpast⟩ := List.pairwise_append.1 hdis
  obtain ⟨hrest, -⟩ := List.pairwise_cons.1 htail
  -- some of the commands for the block took effect, and nothing else happened since
  have hstuck' : dev.config.stuckBits = [] := by rw [h.alike.config, hstuck]
  obtain ⟨pre, hpre, hunder⟩ := hruns.initial hstuck'
  have hwithin : ∀ c ∈ pre, c.span.Within b.span := fun c hc =>
    commands_within (Image.size_slice hb) (hpre.subset hc)
  have hsince : ∀ a, a ∉ b.span → e'.memory.byte a = dev.memory.byte a := by
    intro a ha
    exact hruns.byte_outside hstuck' hb ha
  have hfresh : Image.Agree b.span dev.memory e.memory := fun a ha =>
    (h.fresh a fun c hc hac => hpast c hc b List.mem_cons_self a hac ha).1
  refine ⟨hblocks, ?_, ?_, ?_, ?_⟩
  · intro c hc a ha
    have hnone : e.denies plan.new c = false := by
      by_contra hden
      have hign := h.ignored c hc (Bool.not_eq_false _ ▸ hden)
      rw [habort] at hign
      cases hign
    have hin := hinside c (hmember (.inl hc))
    have hafter := h.settled_after hstuck hb (fun c hc => hpast c hc b List.mem_cons_self) hruns
    exact (hafter c hc a ha).trans (settled_agree hbits (hsize ▸ hin) hin hnone a ha)
  · intro c hc a ha
    have hapart : ∀ c' ∈ past, a ∉ c'.span := fun c' hc' hac =>
      hpast c' hc' c (List.mem_cons_of_mem _ hc) a hac ha
    rw [hsince a fun hab => hrest c hc a hab ha, hold]
    exact (h.fresh a hapart).1
  · intro a ha
    have hapart : ∀ c ∈ plan.blocks, a ∉ c.span := by
      intro c hc hac
      obtain ⟨u, hu, hau⟩ := exists_mem_units_iff.2 ⟨c, hc, hac⟩
      exact ha u hu hau
    rw [hsince a (hapart b (hmember (.inr (.inl rfl)))), hold]
    exact (h.fresh a fun c hc => hapart c (hmember (.inl hc))).1
  · intro a ha
    have hagree : Image.Agree b.span (Command.applyAll dev.config.chip pre dev.memory)
        (Command.applyAll dev.config.chip pre e.memory) :=
      Command.agree_applyAll h.alike.size hwithin hfresh
    rw [hunder.memory, hagree a ha, h.alike.config, hold]
    have hbyte := byte_commands hbits (hsize ▸ hb) hb hpre ha
    rcases hbyte with hbyte | hbyte | ⟨-, hbyte⟩
    · exact .inl hbyte
    · exact .inr (.inl hbyte)
    · exact .inr (.inr hbyte)

/-- The command with which a block ended is one of the block, and the last one that the device was
given. -/
theorem Runs.last {cs : List Command} {α : Type} {err : ExecutionError}
    (hbits : e.config.chip.BitsErased) (h : e.Runs (α := α) policy cs (.error err) e') :
    ∃ c ∈ cs, ∃ dev, err = c.failure err.cause ∧ e.Alike dev ∧
      (device.perform c dev).result = .error err.cause ∧ (device.perform c dev).device = e' := by
  obtain ⟨pre, c, post, rfl, hfailure, hstops⟩ := h
  cases hstops with
  | failed dev hpre hresult hdevice =>
    exact ⟨c, by simp, dev, hfailure, hpre.alike, hresult, hdevice⟩
  | unverified _ _ hunverified => exact absurd hbits hunverified

/-- A small chip that is never ready again after a command that touches address 5. -/
def stalling : Emulator where
  config := { chip := Chip.small, stuckBusyAt := some 5 }
  memory := Image.blank 8 0

/-- **An execution that ends with an error is a part of the whole one.** Unless it is refused before
the device is touched, the memory is that of the whole execution up to some block of the plan, and
that of the start behind it. The error is what the device answered to the last command that it was
given, which was one for that block. Busy flags that never clear, protected ranges and refused
functions make no difference, but bits must not be stuck. -/
theorem executePlan_aborted {σ : Type} {filter : EraserFilter σ} {t : Session σ} {extent : ℕ}
    {current current' : Image} {err : ExecutionError}
    (hplan : (Plan.prepare chip old new extent filter t).1 = .ok plan) (hbits : chip.BitsErased)
    (he : s.device.Emulates chip) (hstuck : s.device.config.stuckBits = [])
    (habort : policy.accessDenied = .abort)
    (hrun : executePlan device chip plan current policy s = ((.error err, current'), s')) :
    (err.phase = .setup → s' = s ∧ current.size ≠ plan.new.size) ∧
    (err.phase ≠ .setup → current = old → s.device.memory = old →
      ∃ past b rest, LeftOff plan chip.erasedValue past b rest s'.device.memory ∧
        plan.old = old ∧ plan.new = new ∧ Span.Within ⟨err.address, err.len⟩ b.span ∧
        ∃ c dev, err = c.failure err.cause ∧ s.device.Alike dev ∧
          (device.perform c dev).result = .error err.cause ∧
          (device.perform c dev).device = s'.device) := by
  obtain ⟨hold, hnew, es, -, -, hes, rfl⟩ := prepare_eq hplan
  constructor
  · intro hphase
    have hrefused : Ends (executePlan device chip (Plan.ofErasers chip old new es) current policy) s
      _ := executePlan_refused
    unfold Ends at hrefused
    rw [hrun] at hrefused
    exact hrefused err rfl hphase
  · rintro - rfl hmemory
    have hwell : (Plan.ofErasers chip current new es).WellFormed chip.totalSize :=
      wellFormed_ofErasers hes hold hnew
    have hcourse : Ends (executePlan device chip (Plan.ofErasers chip current new es)
      s.device.memory policy) s _ := executePlan_course hstuck he hwell hnew policy
    unfold Ends at hcourse
    rw [hmemory, hrun] at hcourse
    obtain ⟨past, b, rest, dev, copy, stats, hblocks, hmidway, -, hruns⟩ := hcourse
    have hbits' : s.device.config.chip.BitsErased := he.follows.symm ▸ hbits
    have hleft := hmidway.leftOff hbits' hstuck hmemory.symm (hnew.trans he.size.symm)
      (hnew.symm ▸ hwell) hblocks habort hruns
    rw [he.follows] at hleft
    obtain ⟨c, hc, last, hfailure, hlast, hresult, hdevice⟩ :=
      hruns.last (hmidway.alike.config.symm ▸ hbits')
    have hb : b ∈ (Plan.ofErasers chip current new es).blocks := by
      rw [hblocks]
      simp
    have hin : b.start + b.size ≤ new.size := (hwell.blocks_inside hb).trans_eq hnew.symm
    refine ⟨past, b, rest, hleft, rfl, rfl, ?_, c, last, hfailure, hmidway.alike.trans hlast,
      hresult, hdevice⟩
    rw [hfailure]
    exact commands_within (Image.size_slice hin) hc

/-- The first block is erased and written. The second one is erased, and the chip does not become
ready after that. -/
theorem executePlan_aborted_stalling : ∃ plan err current' s' past b rest,
    (Plan.prepare Chip.small (Image.blank 8 0) (Image.blank 8 7) 8 EraserFilter.all
      (⟨(), #[], #[]⟩ : Session Unit)).1 = .ok plan ∧
    executePlan device Chip.small plan (Image.blank 8 0) { accessDenied := .abort }
      ⟨stalling, #[], #[]⟩ = ((.error err, current'), s') ∧
    err = ⟨.erase, 4, 4, .timeout⟩ ∧ LeftOff plan 0xFF past b rest s'.device.memory ∧
    s'.device.memory = #[7, 7, 7, 7, 255, 255, 255, 255] := by
  have hend : (fun x : (Except ExecutionError ExecutionStats × Image) × Session Emulator =>
        (x.1.1, x.2.device.memory)) (executePlan device Chip.small
          ⟨Image.blank 8 0, Image.blank 8 7, [⟨4, 0, 2, 0, 0⟩]⟩ (Image.blank 8 0)
          { accessDenied := .abort } ⟨stalling, #[], #[]⟩) =
      (.error ⟨.erase, 4, 4, .timeout⟩, #[7, 7, 7, 7, 255, 255, 255, 255]) := by decide +kernel
  generalize hrun : executePlan device Chip.small
    ⟨Image.blank 8 0, Image.blank 8 7, [⟨4, 0, 2, 0, 0⟩]⟩ (Image.blank 8 0)
    { accessDenied := .abort } ⟨stalling, #[], #[]⟩ = x at hend
  obtain ⟨⟨r, current'⟩, s'⟩ := x
  obtain ⟨rfl, hmemory⟩ := Prod.mk.inj hend
  have haborted := @executePlan_aborted Chip.small { accessDenied := .abort } (Image.blank 8 0)
    (Image.blank 8 7) ⟨Image.blank 8 0, Image.blank 8 7, [⟨4, 0, 2, 0, 0⟩]⟩
    ⟨stalling, #[], #[]⟩ s' Unit EraserFilter.all ⟨(), #[], #[]⟩ 8 (Image.blank 8 0) current'
    ⟨.erase, 4, 4, .timeout⟩ rfl (fun h => by cases h) ⟨rfl, rfl⟩ rfl rfl hrun
  obtain ⟨past, b, rest, hleft, -⟩ := haborted.2 (by decide) rfl rfl
  exact ⟨_, _, current', s', past, b, rest, rfl, hrun, rfl, hleft, hmemory⟩

end Reflash.Emulator
