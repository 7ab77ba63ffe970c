import Reflash.Proofs.Emulator.Denial
import Reflash.Proofs.Emulator.Paranoia

/-!
# What an execution can reach

Whatever faults an emulated chip has, a command changes no byte outside its span, and
the commands of an execution stay inside the blocks of its plan. The rest of the chip
holds afterwards what it held before. A plan leaves out nothing that changes, so
where it does nothing the chip holds what it should, and checking the units of the
plan says as much as checking the whole chip.

* `byte_perform`: one command.
* `executePlan_frame`: a whole execution, by the commands that it is made of.
* `verifyPlan_agrees`: both ways of checking, after any execution from what the chip holds.
-/

namespace Reflash.Emulator

variable {e dev : Emulator} {chip : Chip} {policy : Policy} {plan : Plan} {new current : Image}
  {c : Command} {cs : List Command} {s : Session Emulator} {a : ℕ}

/-! ## Outside the commands -/

/-- **Outside its span**, a command changes no byte, whether it is refused or carried out. -/
theorem byte_perform (ha : a ∉ c.span) :
    (device.perform c e).device.memory.byte a = e.memory.byte a := by
  cases hcheck : e.check c with
  | error err =>
    rw [perform_refused hcheck]
    rfl
  | ok _ =>
    obtain ⟨⟨o, hcarried⟩, -⟩ := perform_carriedOut hcheck
    have hstop : c.span.stop ≤ e.memory.size := (check_ok hcheck).1
    rw [hcarried.byte (size_cells hstop) hstop, if_neg ha]

theorem perform_alike (c : Command) (e : Emulator) : e.Alike (device.perform c e).device := by
  cases c with
  | erase f a n => exact erase_alike f a n e
  | write a data => exact write_alike a data e

/-- Outside the commands in the journal, the memory holds what it held before them. -/
structure Traced (e : Emulator) (t : Emulator × List Command) : Prop where
  alike : e.Alike t.1
  outside : ∀ a, (∀ c ∈ t.2, a ∉ c.span) → t.1.memory.byte a = e.memory.byte a

theorem Traced.untouched {dev' : Emulator} (h : e.Traced (dev, cs)) (hu : dev.Untouched dev') :
    e.Traced (dev', cs) :=
  ⟨h.alike.trans hu.alike, fun a ha => (congrArg (Image.byte · a) hu.memory).trans (h.outside a ha)⟩

/-- One more command, whatever comes of it. -/
theorem Traced.perform (h : e.Traced (dev, cs)) (c : Command) :
    e.Traced ((device.perform c dev).device, cs ++ [c]) := by
  refine ⟨h.alike.trans (perform_alike c dev), fun a ha => ?_⟩
  have hlast : a ∉ c.span := ha c (List.mem_append_right _ (List.mem_singleton_self c))
  exact (byte_perform hlast).trans (h.outside a fun c hc => ha c (List.mem_append_left _ hc))

theorem keeps_traced (e : Emulator) : device.recording.Keeps e.Traced := by
  refine ⟨⟨fun a n t h => ?_, fun _ _ _ _ h => h, fun _ _ _ h => h⟩, fun a data t h => ?_,
    fun f a n t h => ?_⟩
  · exact h.untouched (read_untouched a n t.1)
  · exact h.perform (.write a data)
  · exact h.perform (.erase f a n)

/-- **Outside the blocks of its plan**, an execution changes no byte, whatever it comes to. -/
theorem executePlan_frame : Ends (executePlan device chip plan current policy) s fun _ s' =>
    s.device.Alike s'.device ∧
      ∀ a, (∀ b ∈ plan.blocks, a ∉ b.span) → s'.device.memory.byte a = s.device.memory.byte a := by
  have hserved : Ends (executePlan device.recording chip plan current policy) s.journaled _ :=
    executePlan_served
  have htraced : Ends (executePlan device.recording chip plan current policy) s.journaled _ :=
    executePlan_keeps (keeps_traced s.device) ⟨Alike.refl _, fun _ _ => rfl⟩
  -- the commands in the journal lie inside the blocks, and the journal changes nothing
  refine (executePlan_recording device chip policy plan current).ends (s := s.journaled)
    ((hserved.and htraced).mono ?_)
  rintro _ t ⟨⟨cs, hcs, hjournal⟩, halike, houtside⟩
  refine ⟨halike, fun a ha => houtside a fun c hc hac => ?_⟩
  rw [hjournal] at hc
  obtain ⟨b, hb, hin⟩ := hcs.within hc
  exact ha b hb (hin a hac)

/-! ## Checking the units and checking the chip -/

/-- Where a plan has no unit, nothing changes, and so the memory is as it should be once it is so
in the units. -/
theorem agree_of_units (hframe : ∀ a, (∀ b ∈ plan.blocks, a ∉ b.span) →
      dev.memory.byte a = e.memory.byte a)
    (hcovered : ∀ a, e.memory.byte a ≠ plan.new.byte a → ∃ b ∈ plan.blocks, a ∈ b.span)
    (hunits : ∀ t ∈ plan.verified .units, Image.Agree t dev.memory plan.new) (a : ℕ) :
    dev.memory.byte a = plan.new.byte a := by
  by_cases hin : ∃ b ∈ plan.blocks, a ∈ b.span
  · obtain ⟨u, hu, hau⟩ := exists_mem_units_iff.2 hin
    exact hunits _ (List.mem_map_of_mem hu) a hau
  · rw [hframe a fun b hb hab => hin ⟨b, hb, hab⟩]
    by_contra hne
    exact hin (hcovered a hne)

/-- **Checking the units agrees with checking the chip.** On a uniform chip without protected
ranges, whatever bits are stuck, whatever functions are refused and however long the chip stays
busy: after any execution of a plan from what the chip holds, whether it succeeds or fails, the
verification of the units of the plan succeeds exactly if that of the whole chip does, namely if the
memory is the new image. This holds in paranoid mode and otherwise, and the two need not even have
one policy. -/
theorem verifyPlan_agrees {σ : Type} {filter : EraserFilter σ} {t : Session σ} {extent : ℕ}
    {r : Except ExecutionError ExecutionStats × Image} {s' : Session Emulator}
    (hvalid : chip.validate = .ok ()) (hu : chip.Uniform)
    (hopen : s.device.config.protectedRanges = [])
    (hplan : (Plan.prepare chip s.device.memory new extent filter t).1 = .ok plan)
    (hrun : executePlan device chip plan s.device.memory policy s = (r, s'))
    (partly fully : Policy) :
    ((verifyPlan device chip plan .units partly s').1 = .ok () ↔
      (verifyPlan device chip plan .chip fully s').1 = .ok ()) ∧
    ((verifyPlan device chip plan .chip fully s').1 = .ok () ↔ s'.device.memory = new) := by
  have hs := Chip.validate_iff.1 hvalid
  have hselected : Ends (Plan.prepare chip s.device.memory new extent filter) t _ :=
    prepare_selected (vouches_trivial filter chip) trivial
  obtain ⟨hold, hnew, es, rfl, hne, hes, hoffers⟩ := hselected.2 plan hplan
  set plan := Plan.ofErasers chip s.device.memory new es
  have hwell : plan.WellFormed chip.totalSize := wellFormed_ofErasers hes hold hnew
  have hframe : Ends (executePlan device chip plan s.device.memory policy) s _ := executePlan_frame
  obtain ⟨halike, hframe⟩ := hframe.result hrun
  have hsize : plan.new.size = s'.device.memory.size :=
    (hnew.trans hold.symm).trans halike.size.symm
  -- what both verifications come to
  have hverify : ∀ mode policy, (verifyPlan device chip plan mode policy s').1 = .ok () ↔
      ∀ t ∈ plan.verified mode, Image.Agree t s'.device.memory plan.new := by
    intro mode policy
    have hin : ∀ t ∈ plan.verified mode, t.stop ≤ s'.device.memory.size := fun t ht =>
      hsize ▸ verified_inside (fun u hu => hnew.symm ▸ units_inside hes hold hnew hu) ht
    have hopen' : s'.device.config.protectedRanges = [] := by rw [halike.config, hopen]
    have hchecked : Ends (verifyPlan device chip plan mode policy) s' _ :=
      verifyPlan_open chip policy hopen' hsize hin (Untouched.refl _)
    exact hchecked.2
  have hall : (∀ t ∈ plan.verified .chip, Image.Agree t s'.device.memory plan.new) ↔
      s'.device.memory = new := by
    rw [Plan.verified, List.forall_mem_singleton]
    constructor
    · intro h
      exact Image.ext_byte hsize.symm fun a ha => h a ⟨Nat.zero_le a, by dsimp only; omega⟩
    · rintro h a -
      rw [h]
      rfl
  rw [hverify .units partly, hverify .chip fully]
  refine ⟨⟨fun h => ?_, fun h t ht a ha => ?_⟩, hall⟩
  · refine hall.2 (Image.ext_byte hsize.symm fun a _ => ?_)
    exact agree_of_units hframe
      (fun a => covered_ofErasers hu hs hes hne (fun e he => (hoffers e he).2) hold hnew) h a
  · rw [hall.1 h]
    rfl

/-- The worn chip is asked for a bit that is stuck. The write succeeds, and neither verification
does. -/
theorem verifyPlan_agrees_worn : ∃ plan stats current s',
    (Plan.prepare Chip.small worn.memory #[255, 255, 9, 9, 255, 255, 255, 253] 8 EraserFilter.all
      (⟨(), #[], #[]⟩ : Session Unit)).1 = .ok plan ∧
    executePlan device Chip.small plan worn.memory {} ⟨worn, #[], #[]⟩ =
      ((.ok stats, current), s') ∧
    s'.device.memory = #[255, 255, 9, 9, 255, 255, 255, 252] ∧
    (verifyPlan device Chip.small plan .units {} s').1 ≠ .ok () ∧
    (verifyPlan device Chip.small plan .chip { paranoid := true } s').1 ≠ .ok () := by
  have hok : (executePlan device Chip.small
      ⟨worn.memory, #[255, 255, 9, 9, 255, 255, 255, 253], [⟨2, 6, 1, 1, 0⟩]⟩ worn.memory {}
      ⟨worn, #[], #[]⟩).1.1 = .ok ⟨1, 0, 0, 0, 0, 1, 1, true⟩ := by decide +kernel
  have hmemory : (executePlan device Chip.small
      ⟨worn.memory, #[255, 255, 9, 9, 255, 255, 255, 253], [⟨2, 6, 1, 1, 0⟩]⟩ worn.memory {}
      ⟨worn, #[], #[]⟩).2.device.memory = #[255, 255, 9, 9, 255, 255, 255, 252] := by
    decide +kernel
  generalize hrun : executePlan device Chip.small
    ⟨worn.memory, #[255, 255, 9, 9, 255, 255, 255, 253], [⟨2, 6, 1, 1, 0⟩]⟩ worn.memory {}
    ⟨worn, #[], #[]⟩ = x at hok hmemory
  obtain ⟨⟨r, current⟩, s'⟩ := x
  cases hok
  obtain ⟨hsame, hfully⟩ := @verifyPlan_agrees Chip.small {}
    ⟨worn.memory, #[255, 255, 9, 9, 255, 255, 255, 253], [⟨2, 6, 1, 1, 0⟩]⟩
    #[255, 255, 9, 9, 255, 255, 255, 253] ⟨worn, #[], #[]⟩ Unit EraserFilter.all ⟨(), #[], #[]⟩ 8
    _ s' rfl (by decide) rfl rfl hrun {} { paranoid := true }
  have hfails : s'.device.memory ≠ #[255, 255, 9, 9, 255, 255, 255, 253] := by
    rw [hmemory]
    decide
  exact ⟨_, _, current, s', rfl, hrun, hmemory, fun h => hfails (hfully.1 (hsame.1 h)),
    fun h => hfails (hfully.1 h)⟩

end Reflash.Emulator
