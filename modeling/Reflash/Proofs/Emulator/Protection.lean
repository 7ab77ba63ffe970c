import Reflash.Proofs.Emulator.Confinement
import Reflash.Proofs.Layout

/-!
# Writing next to what is protected

If protected ranges consist of whole blocks of the finest kind, a block of this kind
is either protected as a whole or not at all, and so is a page that divides it. But a
plan can put finer blocks together to a coarser one, which is then given up as a whole
although a part of it is not protected. Verification finds this, so a write that
reports success has reached every byte that is not protected.

* `ProtectsWhole.of_refused`: an aligned range that is refused is protected as a whole.
* `verifyRange_protected`: what verification tells if denied access is ignored.
* `Spares`: what a write next to protected ranges comes to.
* `writeImage_spares`: every write and every erase of the chip; `writeImage_straddled`
  is one that leaves out bytes that are not protected.
-/

namespace Reflash.Emulator

variable {chip : Chip} {policy : Policy} {options : WriteOptions} {new want m : Image} {b : Block}
  {n k a : ℕ} {config : EmulatorConfig} {e e' : Emulator} {plan : Plan} {s : Session Emulator} {err : FlashError}

/-- No protected range has the address. -/
def Unprotected (config : EmulatorConfig) (a : ℕ) : Prop := ∀ r ∈ config.protectedRanges, a ∉ r

/-- The protected ranges consist of whole aligned blocks of `k` bytes. -/
def ProtectsWhole (config : EmulatorConfig) (k : ℕ) : Prop :=
  ∀ r ∈ config.protectedRanges, k ∣ r.start ∧ k ∣ r.stop

/-! ## Aligned ranges -/

theorem ProtectsWhole.of_dvd (h : ProtectsWhole config n) (hk : k ∣ n) :
    ProtectsWhole config k := by
  intro r hr
  obtain ⟨hstart, hstop⟩ := h r hr
  exact ⟨hk.trans hstart, hk.trans hstop⟩

/-- **An aligned range that is refused** is protected as a whole. -/
theorem ProtectsWhole.of_refused {t : Span} (h : ProtectsWhole config k) (hstart : k ∣ t.start)
    (hlen : t.len ≤ k) (haccess : access config t.start t.len = .error err) (ha : a ∈ t) :
    ¬Unprotected config a := by
  intro hfree
  obtain ⟨h1, h2⟩ := Span.mem_def.1 ha
  unfold access at haccess
  dsimp only at haccess
  split at haccess
  · rename_i hany
    obtain ⟨r, hr, hmeets⟩ := List.any_eq_true.1 hany
    unfold AddressRange.meets at hmeets
    rw [Bool.and_eq_true, decide_eq_true_eq, decide_eq_true_eq] at hmeets
    obtain ⟨hrstart, hrstop⟩ := h r hr
    -- the range starts not behind the span and ends not within it
    have hle : r.start ≤ t.start := Nat.le_of_lt_add_of_dvd (by omega) hrstart hstart
    have hge : t.start + k ≤ r.stop := by
      by_contra hlt
      have := Nat.le_of_lt_add_of_dvd (Nat.lt_of_not_le hlt) hrstop hstart
      omega
    exact hfree r hr ⟨by omega, by omega⟩
  · cases haccess

/-! ## Verification -/

/-- **If denied access is ignored**, verification of the whole chip succeeds exactly if every byte
that is not protected is as expected. -/
theorem verifyRange_protected (hlimit : e.memory.size ≤ addressLimit) (hpage : 0 < chip.pageSize)
    (hwhole : ProtectsWhole e.config chip.pageSize) (hign : policy.accessDenied = .ignore)
    (hsize : want.size = e.memory.size) (h : e.Untouched s.device) :
    Ends (verifyRange device chip want 0 policy) s fun r s' => e.Untouched s'.device ∧
      (r = .ok () ↔ ∀ a, Unprotected e.config a → e.memory.byte a = want.byte a) := by
  have hin : 0 + want.size ≤ e.memory.size := by rw [Nat.zero_add, hsize]
  refine (verifyRange_ends chip policy hin h).mono fun r s' hr => ⟨hr.1, hr.2.trans ?_⟩
  rw [Nat.max_eq_left hpage]
  -- a page that may be accessed passes if the memory agrees with what is expected there
  have hpasses : ∀ p ∈ Span.pieces ⟨0, want.size⟩ chip.pageSize,
      access e.config p.start p.len = .ok () →
        (e.Passes policy want 0 p ↔ Image.Agree p want e.memory) := by
    intro p hp haccess
    have hpin : p.stop ≤ want.size := (Span.pieces_inside hp).2.trans_eq (Nat.zero_add _)
    unfold Passes
    rw [Nat.zero_add, haccess]
    exact (Image.agree_iff_slice hpin (hsize ▸ hpin)).symm
  constructor
  · intro hpass a ha
    by_contra hne
    have hlt : a < want.size := hsize ▸ Image.lt_size_of_ne hsize.symm hne
    obtain ⟨p, hp, hap⟩ := (Span.mem_pieces (s := ⟨0, want.size⟩) hpage).2
      ⟨Nat.zero_le a, by dsimp only; omega⟩
    obtain ⟨halign, hlen⟩ := Span.pieces_aligned hp
    cases haccess : access e.config p.start p.len with
    | ok _ => exact hne ((hpasses p hp haccess).1 (hpass p hp) a hap).symm
    | error err =>
      -- the page would be protected as a whole
      exact hwhole.of_refused halign hlen haccess hap ha
  · intro hall p hp
    have hpin : p.stop ≤ want.size := (Span.pieces_inside hp).2.trans_eq (Nat.zero_add _)
    cases haccess : access e.config p.start p.len with
    | ok _ =>
      refine (hpasses p hp haccess).2 fun a ha => (hall a fun r hr => ?_).symm
      have hlt : a < addressLimit := (ha.2.trans_le (hsize ▸ hpin)).trans_le hlimit
      exact not_mem_of_access haccess hr ha hlt
    | error err =>
      unfold Passes
      rw [Nat.zero_add, haccess, access_error haccess]
      unfold Policy.ignores
      rw [hign]
      rfl

/-! ## What is left out -/

/-- What a write or an erase with this plan comes to, `m` being the memory afterwards. It fails only
in verification, and succeeds exactly if every byte that is not protected is as it should be. What
is protected is as it was. A byte that is not can have been left out only in a block that is coarser
than `n` bytes and reaches into a protected range. So if the blocks of the plan that do so are
protected as a whole, the operation succeeds and no byte is left out. -/
structure Spares (e : Emulator) (n : ℕ) (plan : Plan) (r : Except OperationError Summary)
    (m : Image) : Prop where
  failure : ∀ err, r = .error err → ∃ cause, err = .verify cause
  success : (∃ summary, r = .ok summary) ↔ ∀ a, Unprotected e.config a → m.byte a = plan.new.byte a
  kept : ∀ a, ¬Unprotected e.config a → m.byte a = e.memory.byte a
  reached : ∀ a, Unprotected e.config a → m.byte a = plan.new.byte a ∨
    ∃ b ∈ plan.blocks, a ∈ b.span ∧ n < b.size ∧ bars e.config b = true
  complete : (∀ b ∈ plan.blocks, n < b.size → bars e.config b = true →
      ∀ a ∈ b.span, ¬Unprotected e.config a) →
    (∃ summary, r = .ok summary) ∧ ∀ a, Unprotected e.config a → m.byte a = plan.new.byte a

/-- Where the chip holds the new image already, nothing is left out. -/
theorem spares_of_idle (hm : m = e.memory) (hnew : plan.new = e.memory) (summary : Summary) :
    e.Spares n plan (.ok summary) m := by
  have hdone : ∀ a, m.byte a = plan.new.byte a := by
    intro a
    rw [hm, hnew]
  refine ⟨?_, iff_of_true ⟨_, rfl⟩ fun a _ => hdone a, ?_, fun a _ => .inl (hdone a),
    fun _ => ⟨⟨_, rfl⟩, fun a _ => hdone a⟩⟩
  · intro err herr
    cases herr
  · intro a _
    rw [hm]

/-- A block of the finest kind is barred only if it is protected as a whole. -/
theorem coarse_of_bars (hn : chip.Finest n) (hwhole : ProtectsWhole config n) (hb : b.Legal chip)
    (hbars : bars config b = true) (ha : a ∈ b.span) (hfree : Unprotected config a) :
    n < b.size := by
  by_contra hle
  obtain ⟨f, hget, husable, hat⟩ := hb.function
  obtain ⟨region, hregion, hsize⟩ := EraseFunction.exists_region_of_blockSizeAt? hat
  have hleast := hn.least f (List.mem_of_getElem? hget) husable region hregion
  have hbn : b.size = n := by omega
  have halign : n ∣ b.start := by
    rw [← hbn]
    exact Nat.dvd_of_mod_eq_zero hb.aligned
  cases haccess : access config b.start b.size with
  | ok _ =>
    rw [bars_eq_false.2 haccess] at hbars
    cases hbars
  | error err => exact hwhole.of_refused (t := b.span) halign hbn.le haccess ha hfree

/-- **Where denied access is confined**, only bytes of coarser blocks are left out. -/
theorem Confined.spares {r : Except OperationError Summary} (hn : chip.Finest n)
    (hwhole : ProtectsWhole e.config n) (hlegal : ∀ b ∈ plan.blocks, b.Legal chip)
    (hcovered : ∀ a, e.memory.byte a ≠ plan.new.byte a → ∃ b ∈ plan.blocks, a ∈ b.span)
    (hc : e.Confined plan m) (hfail : ∀ err, r = .error err → ∃ cause, err = .verify cause)
    (hok : (∃ summary, r = .ok summary) ↔ ∀ a, Unprotected e.config a → m.byte a = plan.new.byte a) :
    e.Spares n plan r m := by
  have hreached : ∀ a, Unprotected e.config a → m.byte a = plan.new.byte a ∨
      ∃ b ∈ plan.blocks, a ∈ b.span ∧ n < b.size ∧ bars e.config b = true := by
    intro a ha
    by_cases hin : ∃ b ∈ plan.blocks, a ∈ b.span
    · obtain ⟨b, hb, hab⟩ := hin
      cases hbars : bars e.config b with
      | false => exact .inl (hc.granted b hb hbars a hab)
      | true =>
        exact .inr ⟨b, hb, hab, coarse_of_bars hn hwhole (hlegal b hb) hbars hab ha, hbars⟩
    · have hsame : e.memory.byte a = plan.new.byte a := by
        by_contra hne
        exact hin (hcovered a hne)
      refine .inl ((hc.outside a fun u hu hau => hin ?_).trans hsame)
      exact exists_mem_units_iff.1 ⟨u, hu, hau⟩
  refine ⟨hfail, hok, fun a ha => ?_, hreached, fun hfine => ?_⟩
  · unfold Unprotected at ha
    push Not at ha
    obtain ⟨r, hr, har⟩ := ha
    exact hc.guarded r hr a har
  · have hall : ∀ a, Unprotected e.config a → m.byte a = plan.new.byte a := by
      intro a ha
      rcases hreached a ha with hdone | ⟨b, hb, hab, hcoarse, hbars⟩
      · exact hdone
      · exact absurd ha (hfine b hb hcoarse hbars a hab)
    exact ⟨hok.2 hall, hall⟩

/-! ## Programming -/

/-- The filter that the options ask for. -/
def filterFor (options : WriteOptions) : EraserFilter Emulator :=
  if options.probeErasers then EraserFilter.dryRun device else EraserFilter.all

/-- An operation that ended with `r` and left `dev` had a plan from what the chip held for the image
`new`, and spared what is not protected. -/
def Programs (e : Emulator) (chip : Chip) (options : WriteOptions) (n : ℕ) (new : Image)
    (r : Except OperationError Summary) (dev : Emulator) : Prop :=
  ∃ (t : Session Emulator) (plan : Plan), e.Untouched t.device ∧
    (Plan.make chip e.memory new .diff (filterFor options) t).1 = .ok plan ∧ plan.new = new ∧
    e.Spares n plan r dev.memory

/-- **After an execution that confined denied access**, verification tells whether a byte was left
out. -/
theorem verifyExecuted_spares {stats : ExecutionStats} (hn : chip.Finest n)
    (hlimit : e.memory.size ≤ addressLimit) (hpage : 0 < chip.pageSize) (hdvd : chip.pageSize ∣ n)
    (hwhole : ProtectsWhole e.config n) (hlegal : ∀ b ∈ plan.blocks, b.Legal chip)
    (hcovered : ∀ a, e.memory.byte a ≠ plan.new.byte a → ∃ b ∈ plan.blocks, a ∈ b.span)
    (hnew : plan.new.size = e.memory.size) (hverify : options.verify = .chip)
    (hign : options.policy.accessDenied = .ignore) (hchanged : stats.contentChanged = true)
    (halike : e.Alike s.device) (hc : e.Confined plan s.device.memory) :
    Ends (verifyExecuted device chip plan options stats) s fun r s' => match r with
      | .ok _ => ∀ summary, e.Spares n plan (.ok summary) s'.device.memory
      | .error err => e.Spares n plan (.error err) s'.device.memory := by
  refine verifyExecuted_whole (Q := fun r (dev : Emulator) => match r with
      | .ok _ => ∀ summary, e.Spares n plan (.ok summary) dev.memory
      | .error err => e.Spares n plan (.error err) dev.memory) hverify hchanged fun t ht => ?_
  have hrange : Ends (verifyRange device chip plan.new 0 options.policy) t _ :=
    verifyRange_protected (e := s.device) (halike.size.symm ▸ hlimit) hpage
      (halike.config.symm ▸ hwhole.of_dvd hdvd) hign (hnew.trans halike.size.symm)
      (ht ▸ Untouched.refl _)
  refine hrange.mono ?_
  rintro r t' ⟨h', hr⟩
  rw [halike.config] at hr
  cases r with
  | ok _ =>
    dsimp only
    intro summary
    rw [h'.memory]
    refine hc.spares hn hwhole hlegal hcovered ?_ (iff_of_true ⟨_, rfl⟩ (hr.1 rfl))
    intro err herr
    cases herr
  | error err =>
    dsimp only
    rw [h'.memory]
    refine hc.spares hn hwhole hlegal hcovered ?_ (iff_of_false ?_ fun hall => ?_)
    · intro err' herr
      cases herr
      exact ⟨_, rfl⟩
    · rintro ⟨summary, hok⟩
      cases hok
    · cases hr.2 hall

/-- **Programming next to what is protected**, from contents that are those of the chip. -/
theorem program_spares (hu : chip.Uniform) (hs : chip.Sound) (hbits : chip.BitsErased)
    (hlimit : chip.totalSize ≤ addressLimit) (hn : chip.Finest n) (hdvd : chip.pageSize ∣ n)
    (he : e.OnlyProtects chip) (hwhole : ProtectsWhole e.config n) (hverify : options.verify = .chip)
    (hign : options.policy.accessDenied = .ignore) (hnew : new.size = chip.totalSize)
    (h : e.Untouched s.device) :
    Ends (program device chip e.memory new .diff options) s fun r s' =>
      e.Programs chip options n new r s'.device := by
  obtain ⟨f, hf, husable, region, hregion, hregionSize⟩ := hn.offered
  obtain ⟨i, hget⟩ := List.mem_iff_getElem?.1 hf
  have hsize := he.emulates.size
  have hfree : i ∉ e.config.restricted := by
    rw [he.unrestricted]
    exact List.not_mem_nil
  have hpage : 0 < chip.pageSize := by
    obtain ⟨r, hr, hpos, -⟩ := hu.region hs hf husable
    rw [hr, List.mem_singleton] at hregion
    rw [← hregionSize, hregion] at hdvd
    exact Nat.pos_of_dvd_of_pos hdvd hpos
  have hmake : Ends (Plan.make chip e.memory new .diff (filterFor options)) s _ :=
    make_emulated hu hs he.emulates hget husable hfree hnew options.probeErasers h
  have hthis : Ends (Plan.make chip e.memory new .diff (filterFor options)) s fun r _ =>
      r = (Plan.make chip e.memory new .diff (filterFor options) s).1 := rfl
  refine program_ends
    (R := fun r dev => (e.Untouched dev ∧ ∃ es, r = .ok (Plan.ofErasers chip e.memory new es) ∧
      es ≠ [] ∧ Nested es ∧ ∀ o ∈ es, chip.Offers o) ∧
        r = (Plan.make chip e.memory new .diff (filterFor options) s).1)
    (Q := fun r dev => e.Programs chip options n new r dev) (hmake.and hthis) ?_ ?_ ?_
  · rintro err dev ⟨⟨-, es, ⟨⟩, -⟩, -⟩
  · rintro _ dev ⟨⟨hdev, es, ⟨⟩, hne, hes, hoffers⟩, hplan⟩ hnil
    -- without units the memory is the new image already
    have heq : e.memory = new :=
      eq_of_units_eq_nil hu hs hes hne hoffers hsize hnew hnil
    exact ⟨s, _, h, hplan.symm, rfl, spares_of_idle hdev.memory heq.symm _⟩
  · rintro _ s₁ ⟨⟨hdev, es, ⟨⟩, hne, hes, hoffers⟩, hplan⟩ hunits
    have hlegal : ∀ b ∈ (Plan.ofErasers chip e.memory new es).blocks, b.Legal chip :=
      fun b hb => (legal_ofErasers (A := fun _ => True) hu hs hes
        (fun o ho => ⟨trivial, hoffers o ho⟩) hsize hnew hb).2
    have hcovered := fun a => covered_ofErasers (a := a) hu hs hes hne hoffers hsize hnew
    have hwell := wellFormed_ofErasers hes hsize hnew
    have hconfines : Ends (executePlan device chip (Plan.ofErasers chip e.memory new es) e.memory
        options.policy) s₁ _ := executePlan_confines hbits hlimit he hwell hlegal hnew hign hdev
    have htouches : Ends (executePlan device chip (Plan.ofErasers chip e.memory new es) e.memory
        options.policy) s₁ _ := executePlan_touches hdev.alike hes hsize hnew hunits
    refine executeAssessed_ends ((hconfines.and htouches).mono ?_)
    rintro ⟨_, image⟩ s₂ ⟨⟨halike, hconfined, stats, ⟨⟩, -⟩, -, hchanged⟩
    refine (verifyExecuted_spares hn (hsize.symm ▸ hlimit) hpage hdvd hwhole hlegal hcovered
      (hnew.trans hsize.symm) hverify hign (hchanged stats rfl) halike hconfined).mono ?_
    intro r s₃ hspares
    cases r with
    | error err => exact ⟨s, _, h, hplan.symm, rfl, hspares⟩
    | ok verified => exact ⟨s, _, h, hplan.symm, rfl, hspares _⟩

/-! ## The whole of a write -/

/-- A small chip that protects one block of the finest kind. -/
def fenced : Emulator where
  config := { chip := { Chip.small with pageSize := 2 }, protectedRanges := [⟨0, 2⟩] }
  memory := Image.blank 8 0

/-- **Writing and erasing next to what is protected.** On a uniform chip that fits into the address
space, whose pages divide its finest blocks and whose only faults are protected ranges of whole
blocks of this kind, let a write or an erase read the chip, ignore denied access and verify the whole
chip. It fails only in verification, and succeeds exactly if all bytes that are not protected are as
they should be, which they are unless the plan has a coarser block only a part of which is
protected. What is protected is as it was. -/
theorem writeImage_spares (hvalid : chip.validate = .ok ()) (hu : chip.Uniform)
    (hbits : chip.BitsErased) (hlimit : chip.totalSize ≤ addressLimit) (hn : chip.Finest n)
    (hdvd : chip.pageSize ∣ n) (he : s.device.OnlyProtects chip)
    (hwhole : ProtectsWhole s.device.config n) (hold : options.old = .readChip)
    (hverify : options.verify = .chip) (hign : options.policy.accessDenied = .ignore) :
    (∀ new : Image, new.size = chip.totalSize →
      ∃ r s', writeImage device chip new options s = (r, s') ∧
        s.device.Programs chip options n new r s'.device) ∧
    ∃ r s', eraseImage device chip options s = (r, s') ∧
      s.device.Programs chip options n (Image.blank chip.totalSize chip.erasedValue) r s'.device := by
  have hs := Chip.validate_iff.1 hvalid
  have hprogram : ∀ (new : Image) (t : Session Emulator), new.size = chip.totalSize →
      s.device.Untouched t.device →
      Ends (program device chip s.device.memory new .diff options) t fun r t' =>
        s.device.Programs chip options n new r t'.device := fun new t hnew ht =>
    program_spares hu hs hbits hlimit hn hdvd he hwhole hverify hign hnew ht
  constructor
  · intro new hnew
    have hwrite : Ends (writeImage device chip new options) s fun r s' =>
        s.device.Programs chip options n new r s'.device := by
      refine writeImage_ends (Q := fun r dev => s.device.Programs chip options n new r dev)
        (fun err hsize => absurd hnew hsize) fun _ => ?_
      rw [hold]
      refine (oldContents_read _ he.emulates.size (Untouched.refl _)).mono ?_
      rintro _ s₁ ⟨rfl, h₁⟩ t ht
      exact hprogram new t hnew (ht ▸ h₁)
    exact ⟨_, _, rfl, hwrite⟩
  · have herase : Ends (eraseImage device chip options) s fun r s' =>
        s.device.Programs chip options n (Image.blank chip.totalSize chip.erasedValue) r
          s'.device := by
      refine eraseImage_ends (Q := fun r dev => s.device.Programs chip options n
        (Image.blank chip.totalSize chip.erasedValue) r dev) ?_
      rw [hold]
      refine (oldContents_read _ he.emulates.size (Untouched.refl _)).mono ?_
      rintro _ s₁ ⟨rfl, h₁⟩ t ht
      exact hprogram _ t Image.size_blank (ht ▸ h₁)
    exact ⟨_, _, rfl, herase⟩

/-- The fenced chip has no other faults than its protected block. -/
theorem fenced_onlyProtects : fenced.OnlyProtects fenced.config.chip ∧
    fenced.config.chip.Finest 2 ∧ ProtectsWhole fenced.config 2 := by
  refine ⟨⟨⟨rfl, rfl⟩, ⟨⟨rfl, rfl, by decide⟩, rfl⟩, rfl⟩, ⟨?_, by decide⟩, ?_⟩
  · exact ⟨.uniform 2 4, by decide, rfl, ⟨2, 4⟩, by decide, rfl⟩
  · intro r hr
    rw [List.mem_singleton.1 hr]
    decide

/-- A protected block of the finest kind is left as it is, and a coarser one is written. -/
theorem writeImage_spares_fenced : ∃ summary s',
    writeImage device fenced.config.chip #[1, 0, 0, 0, 5, 5, 5, 5] {} ⟨fenced, #[], #[]⟩ =
      (.ok summary, s') ∧
    summary.denied = 1 ∧ summary.verified = true ∧
    fenced.Programs fenced.config.chip {} 2 #[1, 0, 0, 0, 5, 5, 5, 5] (.ok summary) s'.device := by
  obtain ⟨he, hn, hwhole⟩ := fenced_onlyProtects
  have hspares := @writeImage_spares fenced.config.chip {} 2 ⟨fenced, #[], #[]⟩ (by decide)
    (by decide) (fun h => by cases h) (by decide) hn (by decide) he hwhole rfl rfl rfl
  obtain ⟨r, s', hrun, hprograms⟩ := hspares.1 #[1, 0, 0, 0, 5, 5, 5, 5] rfl
  have hsummary : (writeImage device fenced.config.chip #[1, 0, 0, 0, 5, 5, 5, 5] {}
      ⟨fenced, #[], #[]⟩).1 = .ok ⟨2, 5, 1, 4, 1, 4, 1, true, true⟩ := by decide +kernel
  rw [hrun] at hsummary
  dsimp only at hsummary
  subst hsummary
  exact ⟨_, s', hrun, rfl, rfl, hprograms⟩

/-- **A coarser block that reaches into a protected range is left out as a whole**, although blocks
of the finest kind would have reached the bytes of it that are not protected. -/
theorem writeImage_straddled : ∃ err s',
    fenced.config.chip.validate = .ok () ∧ fenced.config.chip.Uniform ∧
    fenced.config.chip.Finest 2 ∧ fenced.config.chip.pageSize = 2 ∧
    fenced.OnlyProtects fenced.config.chip ∧ ProtectsWhole fenced.config 2 ∧
    writeImage device fenced.config.chip #[1, 1, 1, 1, 0, 0, 0, 0] {} ⟨fenced, #[], #[]⟩ =
      (.error err, s') ∧
    Unprotected fenced.config 2 ∧
    Image.byte s'.device.memory 2 ≠ Image.byte #[1, 1, 1, 1, 0, 0, 0, 0] 2 := by
  obtain ⟨he, hn, hwhole⟩ := fenced_onlyProtects
  have hend : (fun x : Except OperationError Summary × Session Emulator =>
        (x.1.isOk, x.2.device.memory)) (writeImage device fenced.config.chip
          #[1, 1, 1, 1, 0, 0, 0, 0] {} ⟨fenced, #[], #[]⟩) =
      (false, Image.blank 8 0) := by decide +kernel
  rcases hrun : writeImage device fenced.config.chip #[1, 1, 1, 1, 0, 0, 0, 0] {}
    ⟨fenced, #[], #[]⟩ with ⟨r, s'⟩
  rw [hrun] at hend
  obtain ⟨hfailed, hmemory⟩ := Prod.mk.inj hend
  cases r with
  | ok summary => cases hfailed
  | error err =>
    refine ⟨err, s', by decide, by decide, hn, rfl, he, hwhole, rfl, ?_, ?_⟩
    · intro r hr
      rw [List.mem_singleton.1 hr]
      decide
    · rw [hmemory]
      decide

end Reflash.Emulator
