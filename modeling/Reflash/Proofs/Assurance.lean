import Reflash.Proofs.Chip
import Reflash.Proofs.Reprogram
import Reflash.Proofs.Verification

/-!
# What a passed verification is worth

Where denied access is ignored, a verification that passes should have compared all
that can be read. In paranoid mode it has. Otherwise a range is read in one go, and if
a single byte of it cannot be read, the range passes without having been compared,
and a write of which this was the verification is reported as verified.

* `passes_ignoring`: what is asked of one piece.
* `writeImage_backed`: what the report of a write says about the chip.
* `verification_ignoring`: both, for every device of which some bytes cannot be read.
* `verification_blind`: contents that are wrong and pass.
-/

namespace Reflash

variable {σ : Type} {d : Device σ} {view : σ → View} {chip : Chip} {policy : Policy}
  {want new : Image} {start : ℕ} {p : Span} {plan : Plan} {options : WriteOptions} {s : Session σ}

/-! ## Pieces -/

namespace View

variable {v : View}

/-- Every piece of what is expected from `start` on is as expected, if access to it is granted and
it can be read on its own. The check of access comes to nothing but a denial. -/
def Matches (v : View) (chip : Chip) (want : Image) (start : ℕ) : Prop :=
  ∀ p ∈ Span.pieces ⟨0, want.size⟩ (max chip.pageSize 1),
    (∀ err, v.access (start + p.start) p.len = .error err → err.isAccessDenied = true) ∧
    (v.access (start + p.start) p.len = .ok () → v.Readable ⟨start + p.start, p.len⟩ →
      Image.slice want p = Image.slice v.memory ⟨start + p.start, p.len⟩)

/-- **If denials are ignored**, a piece passes exactly if it is as expected where it is compared. -/
theorem passes_ignoring (hign : policy.accessDenied = .ignore) :
    v.Passes policy want start p ↔
      (∀ err, v.access (start + p.start) p.len = .error err → err.isAccessDenied = true) ∧
      (v.access (start + p.start) p.len = .ok () → v.Readable ⟨start + p.start, p.len⟩ →
        Image.slice want p = Image.slice v.memory ⟨start + p.start, p.len⟩) := by
  constructor
  · intro h
    refine ⟨fun err herr => ?_, h.equal⟩
    have hignored := h.refused err herr
    unfold Policy.ignores at hignored
    exact (Bool.and_eq_true_iff.1 hignored).1
  · rintro ⟨hrefused, hequal⟩
    exact ⟨fun err herr => (Policy.ignores_denied (hrefused err herr)).2 hign, fun _ _ => hign,
      hequal⟩

theorem confirms_ignoring (hign : policy.accessDenied = .ignore) :
    v.Confirms chip policy want start ↔
      (policy.paranoid = false ∧ ¬v.Readable ⟨start, want.size⟩) ∨ v.Matches chip want start := by
  refine or_congr ⟨fun h => ⟨h.whole, h.refused⟩, fun h => ⟨h.1, hign, h.2⟩⟩ ?_
  exact forall₂_congr fun _ _ => passes_ignoring hign

end View

/-! ## Reports -/

/-- What is reported as verified has been verified, and the device shows it as it is. -/
theorem verifyExecuted_verified (hd : d.Visible view) {stats : ExecutionStats}
    (hin : ∀ t ∈ plan.verified options.verify, t.stop ≤ chip.totalSize) :
    Ends (verifyExecuted d chip plan options stats) s fun r s' =>
      r = .ok true → (view s'.device).memory.size = chip.totalSize →
        ∀ t ∈ plan.verified options.verify,
          (view s'.device).Confirms chip options.policy (Image.slice plan.new t) t.start := by
  refine verifyExecuted_ends (Q := fun r dev => r = .ok true →
    (view dev).memory.size = chip.totalSize → ∀ t ∈ plan.verified options.verify,
      (view dev).Confirms chip options.policy (Image.slice plan.new t) t.start)
    (fun _ hok => by cases hok) fun _ s₁ _ => ?_
  have hshown : view s₁.device = view s₁.device := rfl
  have hkept : Ends (verifyPlan d chip plan options.verify options.policy) s₁ fun _ s₂ =>
      view s₂.device = view s₁.device :=
    verifyPlan_keeps (hd s₁.device).toReadsKeep plan options.verify s₁ hshown
  have hpassed : Ends (verifyPlan d chip plan options.verify options.policy) s₁ fun r _ =>
      r = .ok () → (view s₁.device).memory.size = chip.totalSize →
        ∀ t ∈ plan.verified options.verify,
          (view s₁.device).Confirms chip options.policy (Image.slice plan.new t) t.start := by
    intro hok hsize
    have hplan : Ends (verifyPlan d chip plan options.verify options.policy) s₁ _ :=
      verifyPlan_reveals (hd s₁.device) chip options.policy
        (fun t ht => hsize.symm ▸ hin t ht) hshown
    exact hplan.2.1 hok
  refine (hkept.and hpassed).mono ?_
  rintro (cause | _) s₂ ⟨hview, hconfirms⟩ hok
  · cases hok
  · rw [hview]
    exact hconfirms rfl

/-- The ranges that are verified lie on the chip. -/
theorem make_inside {old : Image} {mode : ExtentMode} {filter : EraserFilter σ}
    (h : (Plan.make chip old new mode filter s).1 = .ok plan) : plan.new = new ∧
      new.size = chip.totalSize ∧ ∀ t ∈ plan.verified options.verify, t.stop ≤ new.size := by
  obtain ⟨hold, hnew, es, -, -, hes, rfl⟩ := prepare_eq h
  exact ⟨rfl, hnew, fun t => verified_inside fun u hu =>
    (units_inside hes hold hnew hu).trans_eq hnew.symm⟩

/-- If a result is reported as verified, the device confirms what was verified of such a plan. -/
def Backed (made : Plan → Prop) (view : σ → View) (chip : Chip) (options : WriteOptions)
    (r : Except OperationError Summary) (dev : σ) : Prop :=
  ∀ summary, r = .ok summary → summary.verified = true →
    (view dev).memory.size = chip.totalSize →
      ∃ plan, made plan ∧ ∀ t ∈ plan.verified options.verify,
        (view dev).Confirms chip options.policy (Image.slice plan.new t) t.start

theorem backed_error {made : Plan → Prop} {err : OperationError} {dev : σ} :
    Backed made view chip options (.error err) dev := fun _ hok => by cases hok

theorem Backed.mono {made made' : Plan → Prop} {r : Except OperationError Summary} {dev : σ}
    (h : Backed made view chip options r dev) (hmade : ∀ plan, made plan → made' plan) :
    Backed made' view chip options r dev := by
  intro summary hok hverified hsize
  obtain ⟨plan, hplan, hconfirms⟩ := h summary hok hverified hsize
  exact ⟨plan, hmade plan hplan, hconfirms⟩

/-- **Programming** backs what it reports, with the plan that it makes. -/
theorem program_backed (hd : d.Visible view) (old : Image) (mode : ExtentMode) :
    Ends (program d chip old new mode options) s fun r s' =>
      Backed (fun plan => plan.MadeFrom d chip old new mode options s) view chip options r
        s'.device := by
  refine program_ends (R := fun r _ => ∀ plan, r = .ok plan →
      plan.MadeFrom d chip old new mode options s)
    (Q := Backed (fun plan => plan.MadeFrom d chip old new mode options s) view chip options)
    (fun _ hplan => hplan) (fun _ _ _ => backed_error) ?_ ?_
  · rintro plan dev - - summary ⟨⟩ hverified
    cases hverified
  · intro plan s₁ hplan _
    have hmade : plan.MadeFrom d chip old new mode options s := hplan plan rfl
    obtain ⟨-, hsize, hin⟩ := make_inside hmade
    have hrun : Ends (executeAssessed d chip plan mode options.policy) s₁ fun _ _ => True := trivial
    refine hrun.mono fun r s₂ _ => ?_
    cases r with
    | error err => exact backed_error
    | ok stats =>
      refine (verifyExecuted_verified hd fun t ht => (hin t ht).trans_eq hsize).mono ?_
      rintro (err | verified) s₃ hv
      · exact backed_error
      · rintro summary ⟨⟩ hverified hsize
        have hverified : verified = true := hverified
        exact ⟨plan, hmade, hv (by rw [hverified]) hsize⟩

/-- **What a write reports as verified** is confirmed by the device. -/
theorem writeImage_backed (hd : d.Visible view) :
    Ends (writeImage d chip new options) s fun r s' =>
      Backed (fun plan => plan.MadeIn d chip chip.erasedValue new options s) view chip options r
        s'.device := by
  refine writeImage_ends
    (Q := Backed (fun plan => plan.MadeIn d chip chip.erasedValue new options s) view chip options)
    (fun _ _ => backed_error) fun _ => ?_
  have hold : Ends (oldContents d chip chip.erasedValue options.old) s fun r s₁ =>
      oldContents d chip chip.erasedValue options.old s = (r, s₁) := rfl
  refine hold.mono fun r s₁ hold => ?_
  rcases r with err | ⟨old, mode⟩
  · exact backed_error
  · intro t ht
    exact (program_backed hd old mode).mono fun r s' h =>
      h.mono fun plan hplan => ⟨old, mode, s₁, t, hold, ht, hplan⟩

/-- **Verification where denied access is ignored**, on any device that shows its memory except at
hidden addresses, for any page size and any expected contents inside the memory. It passes exactly
if every piece that may be accessed and can be read on its own is as expected, or if it is not
paranoid and some address of the range is hidden. In particular, the two ways of verifying agree on
every range that can be read. After a write that reports to be verified, every range that was to be
verified is in one of these two cases. -/
theorem verification_ignoring (hd : d.Visible view) (hign : policy.accessDenied = .ignore) :
    (∀ (s : Session σ) (want : Image) (start : ℕ),
      start + want.size ≤ (view s.device).memory.size →
        ((verifyRange d chip want start policy s).1 = .ok () ↔
          (policy.paranoid = false ∧ ∃ a ∈ (⟨start, want.size⟩ : Span), (view s.device).hidden a) ∨
          (view s.device).Matches chip want start)) ∧
    ∀ (s s' : Session σ) (new : Image) (options : WriteOptions) (summary : Summary),
      options.policy = policy → writeImage d chip new options s = (.ok summary, s') →
        summary.verified = true → (view s'.device).memory.size = chip.totalSize →
          ∃ plan : Plan, plan.MadeIn d chip chip.erasedValue new options s ∧
            ∀ t ∈ plan.verified options.verify,
              (policy.paranoid = false ∧ ∃ a ∈ t, (view s'.device).hidden a) ∨
              (view s'.device).Matches chip (Image.slice new t) t.start := by
  have hunreadable : ∀ (v : View) (t : Span), ¬v.Readable t ↔ ∃ a ∈ t, v.hidden a := by
    intro v t
    unfold View.Readable
    push Not
    rfl
  constructor
  · intro s want start hin
    have hverify : Ends (verifyRange d chip want start policy) s _ :=
      verifyRange_reveals (hd s.device) chip policy hin rfl
    rw [hverify.2, View.confirms_ignoring hign, hunreadable]
  · rintro s s' new options summary rfl hrun hverified hsize
    have hwrite : Ends (writeImage d chip new options) s _ := writeImage_backed hd
    obtain ⟨plan, hmade, hconfirms⟩ := hwrite.result hrun summary rfl hverified hsize
    obtain ⟨_, _, _, _, _, _, hplan⟩ := id hmade
    obtain ⟨rfl, -, hin⟩ := make_inside hplan
    refine ⟨plan, hmade, fun t ht => ?_⟩
    have hlen : (Image.slice plan.new t).size = t.len := Image.size_slice (hin t ht)
    have ht := (View.confirms_ignoring hign).1 (hconfirms t ht)
    rwa [hlen, hunreadable] at ht

/-- The last byte of the memory cannot be read. A range before it passes because it is as expected,
and a write that verifies only what it wrote has verified that. -/
theorem verification_ignoring_veiled :
    (View.veiled ⟨7, 1⟩ #[0, 9, 0, 0, 0, 0, 0, 0]).Matches Chip.small #[0, 9, 0, 0] 0 ∧
    ∃ s' summary plan, writeImage (Device.veiled ⟨7, 1⟩) Chip.small #[0, 9, 0, 0, 5, 0, 0, 0]
        { old := .reference #[0, 9, 0, 0, 0, 0, 0, 0], verify := .units }
        ⟨#[0, 9, 0, 0, 0, 0, 0, 0], #[], #[]⟩ = (.ok summary, s') ∧ summary.verified = true ∧
      Plan.MadeIn plan (Device.veiled ⟨7, 1⟩) Chip.small 255 #[0, 9, 0, 0, 5, 0, 0, 0]
        { old := .reference #[0, 9, 0, 0, 0, 0, 0, 0], verify := .units }
        ⟨#[0, 9, 0, 0, 0, 0, 0, 0], #[], #[]⟩ ∧
      ∀ t ∈ plan.verified .units, (∃ a ∈ t, a ∈ (⟨7, 1⟩ : Span)) ∨
        (View.veiled ⟨7, 1⟩ s'.device).Matches Chip.small
          (Image.slice #[0, 9, 0, 0, 5, 0, 0, 0] t) t.start := by
  obtain ⟨hrange, hwrite⟩ := @verification_ignoring Image (Device.veiled ⟨7, 1⟩)
    (View.veiled ⟨7, 1⟩) Chip.small {} (visible_veiled _) rfl
  constructor
  · refine ((hrange ⟨#[0, 9, 0, 0, 0, 0, 0, 0], #[], #[]⟩ #[0, 9, 0, 0] 0 (by decide)).1
      (by decide +kernel)).resolve_left ?_
    rintro ⟨-, a, ⟨-, h1⟩, h2, -⟩
    simp only [List.size_toArray, List.length_cons, List.length_nil] at h1
    dsimp only at h2
    omega
  · have hok : (writeImage (Device.veiled ⟨7, 1⟩) Chip.small #[0, 9, 0, 0, 5, 0, 0, 0]
        { old := .reference #[0, 9, 0, 0, 0, 0, 0, 0], verify := .units }
        ⟨#[0, 9, 0, 0, 0, 0, 0, 0], #[], #[]⟩).1 = .ok ⟨1, 1, 1, 2, 1, 2, 0, true, true⟩ := by
      decide +kernel
    have hsize : (writeImage (Device.veiled ⟨7, 1⟩) Chip.small #[0, 9, 0, 0, 5, 0, 0, 0]
        { old := .reference #[0, 9, 0, 0, 0, 0, 0, 0], verify := .units }
        ⟨#[0, 9, 0, 0, 0, 0, 0, 0], #[], #[]⟩).2.device.size = 8 := by
      decide +kernel
    generalize hrun : writeImage (Device.veiled ⟨7, 1⟩) Chip.small #[0, 9, 0, 0, 5, 0, 0, 0]
      { old := .reference #[0, 9, 0, 0, 0, 0, 0, 0], verify := .units }
      ⟨#[0, 9, 0, 0, 0, 0, 0, 0], #[], #[]⟩ = x at hok hsize
    obtain ⟨r, s'⟩ := x
    cases hok
    obtain ⟨plan, hmade, hverified⟩ := hwrite _ s' _ _ _ rfl hrun rfl hsize
    exact ⟨s', _, plan, rfl, rfl, hmade, fun t ht => (hverified t ht).imp_left fun h => h.2⟩

/-- **Wrong contents that pass**, since the last byte cannot be read. The first piece of the range
can, and does not hold what is expected. In paranoid mode that is found, and otherwise it is not.
A write that verifies the whole chip is reported as verified, although a byte that can be read is
not what it should be. -/
theorem verification_blind :
    (verifyRange (Device.veiled ⟨7, 1⟩) Chip.small #[1, 0, 0, 0, 0, 0, 0, 0] 0 {}
      ⟨Image.blank 8 0, #[], #[]⟩).1 = .ok () ∧
    ¬(View.veiled ⟨7, 1⟩ (Image.blank 8 0)).Matches Chip.small #[1, 0, 0, 0, 0, 0, 0, 0] 0 ∧
    (verifyRange (Device.veiled ⟨7, 1⟩) Chip.small #[1, 0, 0, 0, 0, 0, 0, 0] 0
      { paranoid := true } ⟨Image.blank 8 0, #[], #[]⟩).1 =
        .error (.verifyFailed ⟨0, 1, 0, 1⟩) ∧
    (writeImage (Device.veiled ⟨7, 1⟩) Chip.small #[0, 0, 0, 0, 5, 0, 0, 0]
      { old := .reference (Image.blank 8 0) } ⟨#[0, 9, 0, 0, 0, 0, 0, 0], #[], #[]⟩).1 =
        .ok ⟨1, 1, 1, 2, 1, 2, 0, true, true⟩ ∧
    (writeImage (Device.veiled ⟨7, 1⟩) Chip.small #[0, 0, 0, 0, 5, 0, 0, 0]
      { old := .reference (Image.blank 8 0) } ⟨#[0, 9, 0, 0, 0, 0, 0, 0], #[], #[]⟩).2.device =
        #[0, 9, 0, 0, 5, 0, 0, 0] := by
  refine ⟨?_, ?_, ?_, ?_, ?_⟩
  · decide +kernel
  · intro hmatches
    -- the first piece can be read on its own
    have hread : (View.veiled ⟨7, 1⟩ (Image.blank 8 0)).Readable ⟨0 + 0, 4⟩ := by
      rintro a ⟨-, h1⟩ ⟨h2, -⟩
      dsimp only at h1 h2
      omega
    have hequal := (hmatches ⟨0, 4⟩ (by decide)).2 rfl hread
    exact absurd hequal (by decide)
  · decide +kernel
  · decide +kernel
  · decide +kernel

end Reflash
