import Reflash.Proofs.Emulator.Course

/-!
# Blocks that are denied

A command that is refused changes nothing, but a block can need several commands. One
that is given up has undergone those before the first refused one. If that one is the
first, which it always is when the block needs an erase, the block is as it was.
Otherwise the windows before the refused one are as they should be.

* `not_mem_span_of_accepts`: a command that is not refused touches no protected address.
* `denies_of_erase`: where the erase is granted, nothing is refused.
* `Left`: what is left of a block that was denied.
* `executePlan_denied`: every execution of every plan; `executePlan_denied_window` shows
  that a denied block can have changed.
-/

namespace Reflash.Emulator

variable {chip : Chip} {policy : Policy} {old new m : Image} {b : Block} {bs past : List Block}
  {e e' dev : Emulator} {c : Command} {plan : Plan} {s : Session Emulator} {a : ℕ}

/-! ## What is refused -/

/-- A command that is not refused is inside the memory, and its span may be accessed. -/
theorem check_ok (h : e.check c = .ok ()) :
    c.span.stop ≤ e.memory.size ∧ access e.config c.span.start c.span.len = .ok () := by
  have hwrite : ∀ {a n : ℕ}, e.checkWrite a n = .ok () →
      a + n ≤ e.memory.size ∧ access e.config a n = .ok () := by
    intro a n h
    by_cases hle : a + n ≤ e.memory.size
    · rw [checkWrite_inside hle] at h
      exact ⟨hle, h⟩
    · unfold checkWrite inside at h
      rw [if_neg hle] at h
      cases h
  cases c with
  | write a data => exact hwrite h
  | erase f a n =>
    have herase : e.checkErase f a n = .ok () := h
    rw [checkErase_eq] at herase
    cases hf : eraseFunction e.config f with
    | error err =>
      rw [hf] at herase
      cases herase
    | ok g =>
      rw [hf, Except.bind] at herase
      split at herase
      · cases herase
      · exact hwrite herase

/-- **A command that is not refused** touches no protected address. -/
theorem not_mem_span_of_accepts (hlimit : e.memory.size ≤ addressLimit) (h : e.accepts c = true)
    {r : AddressRange} (hr : r ∈ e.config.protectedRanges) (ha : a ∈ r) : a ∉ c.span := by
  intro hac
  obtain ⟨hstop, haccess⟩ := check_ok (accepts_iff.1 h)
  have hlt : a < addressLimit := (hac.2.trans_le hstop).trans_le hlimit
  exact not_mem_of_access haccess hr hac hlt ha

/-- A write inside the block is refused only because of protection. -/
theorem check_writing {want : Image} {w : Span} (hb : b.start + b.size ≤ e.memory.size)
    (hwant : want.size = b.size) (hw : w.start + w.len ≤ want.size) :
    e.check (b.writing want w) = access e.config (b.start + w.start) w.len := by
  have hlen : (Image.slice want w).size = w.len := Image.size_slice hw
  have hwrite := checkWrite_inside (e := e) (a := b.start + w.start) (n := w.len) (by omega)
  rw [← hlen] at hwrite ⊢
  exact hwrite

/-- **If a block may be accessed, no command for it is refused**, except for its erase. -/
theorem accepts_of_access (hb : b.start + b.size ≤ e.memory.size)
    (hnew : b.start + b.size ≤ new.size) (haccess : access e.config b.start b.size = .ok ())
    (hc : c ∈ e.commandsFor new b) : c = b.command ∨ e.accepts c = true := by
  have hwant : (Image.slice new b.span).size = b.size := Image.size_slice hnew
  rcases mem_commands hc with rfl | ⟨w, hw, rfl⟩
  · exact .inl rfl
  · right
    rw [accepts_iff, check_writing hb hwant hw]
    exact access_mono haccess (Nat.le_add_right _ _) (by omega)

/-- **Where the erase of a block is granted, nothing is refused.** -/
theorem denies_of_erase (hb : b.start + b.size ≤ e.memory.size)
    (hnew : b.start + b.size ≤ new.size) (h : b.command ∈ e.granted new b) :
    e.denies new b = false := by
  have herase : e.accepts b.command = true := granted_accepted h
  have haccess : access e.config b.start b.size = .ok () := (check_ok (accepts_iff.1 herase)).2
  unfold denies
  rw [Bool.not_eq_false', List.all_eq_true]
  intro c hc
  rcases accepts_of_access hb hnew haccess hc with rfl | hacc
  · exact herase
  · exact hacc

/-! ## What is left of a denied block -/

/-- Of a denied block that needs an erase, nothing is granted. -/
theorem granted_of_needErase (hb : b.start + b.size ≤ e.memory.size)
    (hnew : b.start + b.size ≤ new.size) (hden : e.denies new b = true)
    (hneed : needErase (Image.slice e.memory b.span) (Image.slice new b.span)
      e.config.chip.granularity e.config.chip.erasedValue = true) : e.granted new b = [] := by
  have hgranted : ∃ cs, e.granted new b = (b.command :: cs).takeWhile e.accepts := by
    unfold granted commandsFor Block.commands
    rw [if_pos hneed]
    exact ⟨_, rfl⟩
  obtain ⟨cs, hcs⟩ := hgranted
  by_cases herase : e.accepts b.command = true
  · -- the erase is granted, and then nothing is refused
    have hmem : b.command ∈ e.granted new b := by
      rw [hcs, List.takeWhile_cons_of_pos herase]
      exact List.mem_cons_self
    rw [denies_of_erase hb hnew hmem] at hden
    cases hden
  · rw [hcs, List.takeWhile_cons_of_neg herase]

/-- **A denied block is as it was** exactly if the first command that it needs is refused. -/
theorem granted_eq_nil_iff (hbits : e.config.chip.BitsErased)
    (hb : b.start + b.size ≤ e.memory.size) (hnew : b.start + b.size ≤ new.size)
    (hden : e.denies new b = true) :
    Image.Agree b.span (e.settled new b) e.memory ↔ e.granted new b = [] := by
  constructor
  · intro hkept
    by_contra hne
    obtain ⟨c, pre, hcs⟩ := List.exists_cons_of_ne_nil hne
    have hkeep := mt (granted_of_needErase hb hnew hden) hne
    -- the granted commands are writes, and the first one changes something
    have hwant : (Image.slice new b.span).size = b.size := Image.size_slice hnew
    have hcur : (Image.slice e.memory b.span).size = b.size := Image.size_slice hb
    have hpre : e.granted new b <+: e.commandsFor new b := granted_initial
    unfold commandsFor Block.commands at hpre
    rw [if_neg hkeep, hcs] at hpre
    have hpending := pending_keep hbits (hcur.trans hwant.symm) (Bool.eq_false_iff.2 hkeep)
    obtain ⟨i, hi, hchanged⟩ := exists_byte_changed hb hwant rfl hpending hpre
    refine hchanged ?_
    rw [Image.byte_slice hi, Image.byte_slice hi, ← hcs]
    exact hkept _ (Span.mem_def.2 ⟨Nat.le_add_right _ _, Nat.add_lt_add_left hi _⟩)
  · intro hnil a _
    unfold settled
    rw [hnil]
    rfl

/-- No byte of a denied block is left erased. -/
theorem byte_settled_denied (hbits : e.config.chip.BitsErased)
    (hb : b.start + b.size ≤ e.memory.size) (hnew : b.start + b.size ≤ new.size)
    (hden : e.denies new b = true) (ha : a ∈ b.span) :
    (e.settled new b).byte a = e.memory.byte a ∨ (e.settled new b).byte a = new.byte a := by
  rcases byte_settled hbits hb hnew ha with hold | hdone | ⟨herase, -⟩
  · exact .inl hold
  · exact .inr hdone
  · rw [denies_of_erase hb hnew herase] at hden
    cases hden

/-- What is left in `m` of a block that was denied: what the commands before the first refused one
made of it. A block that needs an erase is as it was. One that does not need it is as it was exactly
if the first of its writes is refused, and a mixture of old and new bytes otherwise. -/
structure Left (e : Emulator) (new : Image) (b : Block) (m : Image) : Prop where
  refused : ∃ c post, e.commandsFor new b = e.granted new b ++ c :: post ∧ e.accepts c = false
  granted : Image.Agree b.span m (e.settled new b)
  erase : needErase (Image.slice e.memory b.span) (Image.slice new b.span)
    e.config.chip.granularity e.config.chip.erasedValue = true → Image.Agree b.span m e.memory
  kept : e.config.chip.BitsErased → (Image.Agree b.span m e.memory ↔ e.granted new b = [])
  mixed : e.config.chip.BitsErased → ∀ a ∈ b.span, m.byte a = e.memory.byte a ∨
    m.byte a = new.byte a

theorem left_of_denied (hb : b.start + b.size ≤ e.memory.size)
    (hnew : b.start + b.size ≤ new.size) (hden : e.denies new b = true)
    (hm : Image.Agree b.span m (e.settled new b)) : e.Left new b m := by
  refine ⟨exists_refused hden, hm, fun hneed => ?_, fun hbits => ?_, fun hbits a ha => ?_⟩
  · have hnil := granted_of_needErase hb hnew hden hneed
    unfold settled at hm
    rwa [hnil] at hm
  · rw [← granted_eq_nil_iff hbits hb hnew hden]
    have hback : Image.Agree b.span (e.settled new b) m := fun a ha => (hm a ha).symm
    exact ⟨hback.trans, hm.trans⟩
  · rw [hm a ha]
    exact byte_settled_denied hbits hb hnew hden ha

/-- A chip whose blocks need two writes each, of which the controller refuses one in the first
block. -/
def gated : Emulator where
  config :=
    { chip := { Chip.small with eraseFunctions := [.uniform 4 2] }, protectedRanges := [⟨2, 3⟩] }
  memory := #[255, 255, 255, 255, 0, 0, 0, 0]

/-- **What is left of denied blocks**, after every execution of every plan, whatever is protected,
refused or late: what was granted to them before the first refusal. The blocks before `rest` were
processed, and these are all unless the execution ended with an error, in a block whose command
failed with another error than the policy ignores. -/
theorem executePlan_denied {σ : Type} {filter : EraserFilter σ} {t : Session σ} {extent : ℕ}
    (hplan : (Plan.prepare chip old new extent filter t).1 = .ok plan)
    (he : s.device.Emulates chip) (hstuck : s.device.config.stuckBits = []) (policy : Policy) :
    ∃ r current s' past rest,
      executePlan device chip plan s.device.memory policy s = ((r, current), s') ∧
      plan.blocks = past ++ rest ∧
      (∀ stats, r = .ok stats → rest = [] ∧
        stats.denied = past.countP (s.device.denies plan.new)) ∧
      (∀ err, r = .error err → policy.ignores err.cause = false ∧ ∃ b rest', rest = b :: rest' ∧
        ∃ c ∈ s.device.commandsFor plan.new b, err = c.failure err.cause) ∧
      ∀ b ∈ past, s.device.denies plan.new b = true →
        s.device.Left plan.new b s'.device.memory := by
  obtain ⟨hold, hnew, es, -, -, hes, rfl⟩ := prepare_eq hplan
  have hwell : (Plan.ofErasers chip old new es).WellFormed chip.totalSize :=
    wellFormed_ofErasers hes hold hnew
  have hinside : ∀ b ∈ (Plan.ofErasers chip old new es).blocks, b.start + b.size ≤ new.size :=
    fun b hb => (hwell.blocks_inside hb).trans_eq hnew.symm
  have hmemory : new.size = s.device.memory.size := hnew.trans he.size.symm
  have hcourse : Ends (executePlan device chip (Plan.ofErasers chip old new es) s.device.memory
    policy) s _ := executePlan_course hstuck he hwell hnew policy
  obtain ⟨⟨r, current⟩, s', hrun, hend⟩ := hcourse.exists_run
  cases r with
  | ok stats =>
    obtain ⟨copy, hmidway⟩ := hend
    refine ⟨_, current, s', _, [], hrun, (List.append_nil _).symm, ?_, ?_, fun b hb hden => ?_⟩
    · intro stats' hok
      cases hok
      exact ⟨rfl, hmidway.denied⟩
    · intro err herr
      cases herr
    · have hin := hinside b hb
      exact left_of_denied (hmemory ▸ hin) hin hden (hmidway.settled b hb)
  | error err =>
    obtain ⟨past, b', rest, dev, copy, stats, hblocks, hmidway, hkept, hruns⟩ := hend
    have hb' : b' ∈ (Plan.ofErasers chip old new es).blocks := by
      rw [hblocks]
      simp
    have hdis := hwell.blocks_disjoint
    rw [hblocks] at hdis
    obtain ⟨-, -, hpast⟩ := List.pairwise_append.1 hdis
    refine ⟨_, current, s', past, b' :: rest, hrun, hblocks, ?_, ?_, fun b hb hden => ?_⟩
    · intro stats' hok
      cases hok
    · intro err' herr
      cases herr
      obtain ⟨pre, c, post, hcs, hfailure, -⟩ := hruns
      exact ⟨hkept, b', rest, rfl, c, by rw [hcs]; simp, hfailure⟩
    · have hin : b.start + b.size ≤ new.size := hinside b (by rw [hblocks]; simp [hb])
      -- the last block was processed apart from this one
      have hafter := hmidway.settled_after hstuck (hinside b' hb')
        (fun c hc => hpast c hc b' List.mem_cons_self) hruns
      exact left_of_denied (hmemory ▸ hin) hin hden (hafter b hb)

/-- The first block is denied after one of its writes. -/
theorem executePlan_denied_gated : ∃ plan stats current s',
    (Plan.prepare gated.config.chip gated.memory #[1, 255, 2, 255, 5, 5, 5, 5] 8 EraserFilter.all
      (⟨(), #[], #[]⟩ : Session Unit)).1 = .ok plan ∧
    executePlan device gated.config.chip plan gated.memory {} ⟨gated, #[], #[]⟩ =
      ((.ok stats, current), s') ∧
    plan.blocks = [⟨0, 4, 0⟩, ⟨4, 4, 0⟩] ∧ stats.denied = 1 ∧
    gated.Left plan.new ⟨0, 4, 0⟩ s'.device.memory := by
  obtain ⟨r, current, s', past, rest, hrun, hblocks, hok, -, hleft⟩ :=
    @executePlan_denied gated.config.chip gated.memory #[1, 255, 2, 255, 5, 5, 5, 5]
      ⟨gated.memory, #[1, 255, 2, 255, 5, 5, 5, 5], [⟨4, 0, 2, 0, 0⟩]⟩ ⟨gated, #[], #[]⟩ Unit
      EraserFilter.all ⟨(), #[], #[]⟩ 8 rfl ⟨rfl, rfl⟩ rfl {}
  have hstats : (executePlan device gated.config.chip ⟨gated.memory,
      #[1, 255, 2, 255, 5, 5, 5, 5], [⟨4, 0, 2, 0, 0⟩]⟩ gated.memory {} ⟨gated, #[], #[]⟩).1.1 =
      .ok ⟨2, 0, 1, 1, 4, 2, 5, true⟩ := by decide +kernel
  dsimp only at hrun
  rw [hrun] at hstats
  dsimp only at hstats
  subst hstats
  obtain ⟨rfl, -⟩ := hok _ rfl
  rw [List.append_nil] at hblocks
  refine ⟨_, _, current, s', rfl, hrun, rfl, rfl, hleft _ ?_ (by decide +kernel)⟩
  rw [← hblocks]
  exact List.mem_cons_self

/-- **A denied block can have changed.** It is the only block of this plan and is counted as denied,
but the write before the refused one has taken effect. -/
theorem executePlan_denied_window : ∃ plan stats current s',
    (Plan.prepare gated.config.chip gated.memory #[1, 255, 2, 255, 0, 0, 0, 0] 8 EraserFilter.all
      (⟨(), #[], #[]⟩ : Session Unit)).1 = .ok plan ∧
    executePlan device gated.config.chip plan gated.memory {} ⟨gated, #[], #[]⟩ =
      ((.ok stats, current), s') ∧
    plan.blocks = [⟨0, 4, 0⟩] ∧ stats.denied = 1 ∧
    s'.device.memory = #[1, 255, 255, 255, 0, 0, 0, 0] ∧ s'.device.memory ≠ gated.memory := by
  have hend : (fun x : (Except ExecutionError ExecutionStats × Image) × Session Emulator =>
        (x.1.1, x.2.device.memory)) (executePlan device gated.config.chip
          ⟨gated.memory, #[1, 255, 2, 255, 0, 0, 0, 0], [⟨4, 0, 1, 0, 0⟩]⟩ gated.memory {}
          ⟨gated, #[], #[]⟩) =
      (.ok ⟨1, 0, 1, 0, 0, 1, 1, true⟩, #[1, 255, 255, 255, 0, 0, 0, 0]) := by decide +kernel
  rcases hrun : executePlan device gated.config.chip
    ⟨gated.memory, #[1, 255, 2, 255, 0, 0, 0, 0], [⟨4, 0, 1, 0, 0⟩]⟩ gated.memory {}
    ⟨gated, #[], #[]⟩ with ⟨⟨r, current⟩, s'⟩
  rw [hrun] at hend
  obtain ⟨rfl, hmemory⟩ := Prod.mk.inj hend
  refine ⟨_, _, current, s', rfl, hrun, rfl, rfl, hmemory, ?_⟩
  rw [hmemory]
  decide

end Reflash.Emulator
