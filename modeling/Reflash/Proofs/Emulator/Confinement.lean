import Reflash.Proofs.Emulator.Denial
import Reflash.Proofs.Emulator.RoundTrip

/-!
# Denied access does not spread

On a chip that has no other faults than protected ranges, a command for a block that
can be erased is refused only with denied access. If the policy ignores that, an
execution goes through all blocks of its plan, and what cannot be done is confined to
the blocks that reach into a protected range.

* `Course.ignoring`: the execution does not end early.
* `Confined`: what the memory holds afterwards, block by block.
* `executePlan_confined`: every execution of every plan.
-/

namespace Reflash.Emulator

variable {chip : Chip} {policy : Policy} {new : Image} {b : Block} {bs : List Block}
  {e e' : Emulator} {c : Command} {plan : Plan} {s : Session Emulator}

/-- The chip has no other faults than protected ranges. -/
structure OnlyProtects (e : Emulator) (chip : Chip) : Prop where
  emulates : e.Emulates chip
  prompt : e.Prompt
  unrestricted : e.config.restricted = []

/-- Access to the block as a whole is refused. -/
def bars (config : EmulatorConfig) (b : Block) : Bool := !(access config b.start b.size).isOk

theorem bars_eq_false {config : EmulatorConfig} :
    bars config b = false ↔ access config b.start b.size = .ok () := by
  unfold bars
  cases access config b.start b.size <;> simp [Except.isOk, Except.toBool]

/-- Reading makes no difference. -/
theorem OnlyProtects.untouched (he : e.OnlyProtects chip) (h : e.Untouched e') :
    e'.OnlyProtects chip := by
  obtain ⟨⟨hfollows, hsize⟩, ⟨hreliable, hready⟩, hfree⟩ := he
  rw [← h.config] at hfollows hreliable hfree
  rw [← h.memory] at hsize
  exact ⟨⟨hfollows, hsize⟩, ⟨hreliable, h.stuckBusy.trans hready⟩, hfree⟩

/-! ## What is refused -/

/-- **A command for a block that can be erased** is refused only because of protection. -/
theorem check_legal (he : e.OnlyProtects chip) (hb : b.Legal chip)
    (hnew : new.size = chip.totalSize) (hc : c ∈ e.commandsFor new b) :
    e.check c = access e.config c.span.start c.span.len := by
  have hwant : (Image.slice new b.span).size = b.size := Image.size_slice (hnew.symm ▸ hb.inside)
  rcases mem_commands hc with rfl | ⟨w, hw, rfl⟩
  · have hfree : b.function ∉ e.config.restricted := by
      rw [he.unrestricted]
      exact List.not_mem_nil
    exact checkErase_legal he.emulates hb hfree
  · rw [check_writing (he.emulates.size.symm ▸ hb.inside) hwant hw, span_writing hw]

/-- A block that may be accessed is not denied. -/
theorem denies_of_access (he : e.OnlyProtects chip) (hb : b.Legal chip)
    (hnew : new.size = chip.totalSize) (haccess : access e.config b.start b.size = .ok ()) :
    e.denies new b = false := by
  unfold denies
  rw [Bool.not_eq_false', List.all_eq_true]
  intro c hc
  have hin : b.start + b.size ≤ e.memory.size := he.emulates.size.symm ▸ hb.inside
  rcases accepts_of_access hin (hnew.symm ▸ hb.inside) haccess hc with rfl | hacc
  · rw [accepts_iff, check_legal he hb hnew hc]
    exact haccess
  · exact hacc

/-- **An execution does not end early** if the policy ignores denied access. -/
theorem Course.ignoring {r : Except ExecutionError ExecutionStats} (hbits : chip.BitsErased)
    (he : e.OnlyProtects chip) (hlegal : ∀ b ∈ bs, b.Legal chip) (hnew : new.size = chip.totalSize)
    (hign : policy.accessDenied = .ignore) (h : e.Course policy new bs r e') :
    ∃ stats current, r = .ok stats ∧ e.Midway policy new bs e' current stats := by
  cases r with
  | ok stats =>
    obtain ⟨current, hmidway⟩ := h
    exact ⟨stats, current, rfl, hmidway⟩
  | error err =>
    obtain ⟨past, b, rest, dev, current, stats, hbs, hmidway, hkept, hruns⟩ := h
    obtain ⟨pre, c, post, hcs, -, hstops⟩ := hruns
    cases hstops with
    | unverified _ _ hunverified =>
      rw [hmidway.alike.config, he.emulates.follows] at hunverified
      exact absurd hbits hunverified
    | failed mid hpre hresult hdevice =>
      have halike : e.Alike mid := hmidway.alike.trans hpre.alike
      have hprompt : mid.Prompt := hpre.prompt (hmidway.prompt he.prompt)
      have hlegal : b.Legal chip := hlegal b (by rw [hbs]; simp)
      cases hcheck : mid.check c with
      | ok _ =>
        -- a prompt chip is not late
        have hstuck : mid.config.stuckBits = [] := hprompt.reliable.stuckBits
        rcases (perform_accepted hstuck hcheck).2 with hok | ⟨hlate, -⟩
        · rw [hok] at hresult
          cases hresult
        · exact absurd hprompt hlate
      | error cause =>
        -- the only thing that is refused is access
        rw [perform_refused hcheck] at hresult
        cases hresult
        rw [check_congr halike, check_legal he hlegal hnew (by rw [hcs]; simp)] at hcheck
        rw [access_error hcheck] at hkept
        unfold Policy.ignores at hkept
        rw [hign] at hkept
        cases hkept

/-! ## What the memory holds -/

/-- What the memory `m` holds after the plan: the blocks that may be accessed as a whole are as they
should be, in the others every byte is old or new, and what is protected or outside the units is as
it was. -/
structure Confined (e : Emulator) (plan : Plan) (m : Image) : Prop where
  granted : ∀ b ∈ plan.blocks, bars e.config b = false → Image.Agree b.span m plan.new
  mixed : ∀ b ∈ plan.blocks, ∀ a ∈ b.span,
    m.byte a = e.memory.byte a ∨ m.byte a = plan.new.byte a
  guarded : ∀ r ∈ e.config.protectedRanges, ∀ a ∈ r, m.byte a = e.memory.byte a
  outside : ∀ a, (∀ u ∈ plan.units, a ∉ u.span) → m.byte a = e.memory.byte a

theorem Confined.of_untouched {m : Image} (h : e.Untouched e') (hc : e'.Confined plan m) :
    e.Confined plan m := by
  obtain ⟨hgranted, hmixed, hguarded, houtside⟩ := hc
  rw [h.config] at hgranted hguarded
  rw [h.memory] at hmixed hguarded houtside
  exact ⟨hgranted, hmixed, hguarded, houtside⟩

/-- Protected bytes are as they were after the granted commands for a block. -/
theorem byte_settled_protected (hlimit : e.memory.size ≤ addressLimit) {r : AddressRange}
    (hr : r ∈ e.config.protectedRanges) {a : ℕ} (ha : a ∈ r) :
    (e.settled new b).byte a = e.memory.byte a :=
  Command.byte_applyAll fun _ hc => not_mem_span_of_accepts hlimit (granted_accepted hc) hr ha

/-- **After all blocks**, denied access is confined. -/
theorem Midway.confined {current : Image} {stats : ExecutionStats} (hbits : chip.BitsErased)
    (hlimit : chip.totalSize ≤ addressLimit) (he : e.OnlyProtects chip)
    (hlegal : ∀ b ∈ plan.blocks, b.Legal chip) (hnew : plan.new.size = chip.totalSize)
    (h : e.Midway policy plan.new plan.blocks e' current stats) :
    e.Confined plan e'.memory ∧ stats.denied ≤ plan.blocks.countP (bars e.config) := by
  have hbits' : e.config.chip.BitsErased := he.emulates.follows.symm ▸ hbits
  have hinside : ∀ b ∈ plan.blocks,
      b.start + b.size ≤ e.memory.size ∧ b.start + b.size ≤ plan.new.size := by
    intro b hb
    have hin := (hlegal b hb).inside
    exact ⟨he.emulates.size.symm ▸ hin, hnew.symm ▸ hin⟩
  have hopen : ∀ b ∈ plan.blocks, bars e.config b = false → e.denies plan.new b = false :=
    fun b hb hbars => denies_of_access he (hlegal b hb) hnew (bars_eq_false.1 hbars)
  refine ⟨⟨fun b hb hbars => ?_, fun b hb a ha => ?_, fun r hr a ha => ?_, fun a ha => ?_⟩, ?_⟩
  · obtain ⟨hin, hin'⟩ := hinside b hb
    exact (h.settled b hb).trans (settled_agree hbits' hin hin' (hopen b hb hbars))
  · obtain ⟨hin, hin'⟩ := hinside b hb
    rw [h.settled b hb a ha]
    cases hden : e.denies plan.new b with
    | true => exact byte_settled_denied hbits' hin hin' hden ha
    | false => exact .inr (settled_agree hbits' hin hin' hden a ha)
  · -- a protected byte is in one of the blocks, or none of them concerns it
    by_cases hin : ∃ b ∈ plan.blocks, a ∈ b.span
    · obtain ⟨b, hb, hab⟩ := hin
      rw [h.settled b hb a hab]
      exact byte_settled_protected (he.emulates.size.symm ▸ hlimit) hr ha
    · exact (h.fresh a fun b hb hab => hin ⟨b, hb, hab⟩).1
  · refine (h.fresh a fun b hb hab => ?_).1
    obtain ⟨u, hu, hau⟩ := exists_mem_units_iff.2 ⟨b, hb, hab⟩
    exact ha u hu hau
  · rw [h.denied]
    refine List.countP_mono_left fun b hb hden => ?_
    by_contra hbars
    rw [hopen b hb (Bool.eq_false_iff.2 hbars)] at hden
    cases hden

/-- **An execution that ignores denied access** succeeds, and the denial is confined. -/
theorem executePlan_confines (hbits : chip.BitsErased) (hlimit : chip.totalSize ≤ addressLimit)
    (he : e.OnlyProtects chip) (hwell : plan.WellFormed chip.totalSize)
    (hlegal : ∀ b ∈ plan.blocks, b.Legal chip) (hnew : plan.new.size = chip.totalSize)
    (hign : policy.accessDenied = .ignore) (h : e.Untouched s.device) :
    Ends (executePlan device chip plan e.memory policy) s fun r s' =>
      e.Alike s'.device ∧ e.Confined plan s'.device.memory ∧
        ∃ stats, r.1 = .ok stats ∧ stats.denied ≤ plan.blocks.countP (bars e.config) := by
  have he' := he.untouched h
  have hstuck := he'.prompt.reliable.stuckBits
  rw [← h.memory]
  refine (executePlan_course hstuck he'.emulates hwell hnew policy).mono ?_
  intro r s' hcourse
  obtain ⟨stats, current, hok, hmidway⟩ := hcourse.ignoring hbits he' hlegal hnew hign
  obtain ⟨hconfined, hdenied⟩ := hmidway.confined hbits hlimit he' hlegal hnew
  rw [h.config] at hdenied
  exact ⟨h.alike.trans hmidway.alike, hconfined.of_untouched h, stats, hok, hdenied⟩

/-- **A denial is confined to its block.** On a uniform chip that fits into the address space and has
no other faults than protected ranges, every execution of a plan from what the chip holds succeeds
if the policy ignores denied access, in paranoid mode and otherwise. Every planned block that may be
accessed is then as it should be, every byte of another one is old or new, no protected byte and none
outside the units has changed, and no more blocks are counted as denied than access is refused to. -/
theorem executePlan_confined {σ : Type} {filter : EraserFilter σ} {t : Session σ} {extent : ℕ}
    (hvalid : chip.validate = .ok ()) (hu : chip.Uniform) (hbits : chip.BitsErased)
    (hlimit : chip.totalSize ≤ addressLimit) (he : s.device.OnlyProtects chip)
    (hplan : (Plan.prepare chip s.device.memory new extent filter t).1 = .ok plan)
    (hign : policy.accessDenied = .ignore) :
    ∃ stats current s', executePlan device chip plan s.device.memory policy s =
        ((.ok stats, current), s') ∧
      plan.new = new ∧ s.device.Confined plan s'.device.memory ∧
      stats.denied ≤ plan.blocks.countP (bars s.device.config) := by
  have hs := Chip.validate_iff.1 hvalid
  have hselected : Ends (Plan.prepare chip s.device.memory new extent filter) t _ :=
    prepare_selected (vouches_trivial filter chip) trivial
  obtain ⟨hold, hnew, es, rfl, -, hes, hoffers⟩ := hselected.2 plan hplan
  have hlegal : ∀ b ∈ (Plan.ofErasers chip s.device.memory new es).blocks, b.Legal chip :=
    fun b hb => (legal_ofErasers (A := fun _ => True) hu hs hes hoffers hold hnew hb).2
  have hrun : Ends (executePlan device chip (Plan.ofErasers chip s.device.memory new es)
      s.device.memory policy) s _ :=
    executePlan_confines hbits hlimit he (wellFormed_ofErasers hes hold hnew) hlegal hnew hign
      (Untouched.refl _)
  obtain ⟨⟨r, current⟩, s', hrun, -, hconfined, stats, hok, hdenied⟩ := hrun.exists_run
  dsimp only at hok
  subst hok
  exact ⟨stats, current, s', hrun, rfl, hconfined, hdenied⟩

/-- The first block is denied after one of its writes, the second one is erased and written. -/
theorem executePlan_confined_gated : ∃ plan stats current s',
    (Plan.prepare gated.config.chip gated.memory #[1, 255, 2, 255, 5, 5, 5, 5] 8 EraserFilter.all
      (⟨(), #[], #[]⟩ : Session Unit)).1 = .ok plan ∧
    executePlan device gated.config.chip plan gated.memory { paranoid := true }
      ⟨gated, #[], #[]⟩ = ((.ok stats, current), s') ∧
    stats.denied = 1 ∧ stats.erases = 1 ∧ gated.Confined plan s'.device.memory := by
  obtain ⟨stats, current, s', hrun, -, hconfined, -⟩ := @executePlan_confined gated.config.chip
    { paranoid := true } #[1, 255, 2, 255, 5, 5, 5, 5]
    ⟨gated.memory, #[1, 255, 2, 255, 5, 5, 5, 5], [⟨4, 0, 2, 0, 0⟩]⟩ ⟨gated, #[], #[]⟩ Unit
    EraserFilter.all ⟨(), #[], #[]⟩ 8 (by decide) (by decide) (fun h => by cases h) (by decide)
    ⟨⟨rfl, rfl⟩, ⟨⟨rfl, rfl, by decide⟩, rfl⟩, rfl⟩ rfl rfl
  have hstats : (executePlan device gated.config.chip ⟨gated.memory,
      #[1, 255, 2, 255, 5, 5, 5, 5], [⟨4, 0, 2, 0, 0⟩]⟩ gated.memory { paranoid := true }
      ⟨gated, #[], #[]⟩).1.1 = .ok ⟨2, 0, 1, 1, 4, 2, 5, true⟩ := by decide +kernel
  dsimp only at hrun
  rw [hrun] at hstats
  cases hstats
  exact ⟨_, _, current, s', rfl, hrun, rfl, rfl, hconfined⟩

end Reflash.Emulator
