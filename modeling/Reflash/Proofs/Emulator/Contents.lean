import Reflash.Proofs.Emulator.Operations
import Reflash.Proofs.Reprogram
import Reflash.Proofs.Verification

/-!
# Reading back an emulated chip

What reading and verifying tell about the memory of an emulated chip.

* `readImage_ends`, `oldContents_ends`: reading the whole chip gives the memory.
* `verifyRange_ends`: verification succeeds exactly if every piece that may be accessed is as
  expected, and the policy ignores that the others may not.
* `verifyRange_granted`, `verifyRange_open`: where access is granted, and without protected ranges,
  it succeeds exactly if the range is as expected.
* `verifyPlan_open`: the same for what a plan wrote and for the whole chip.
-/

namespace Reflash.Emulator

variable {e : Emulator} {s : Session Emulator} {chip : Chip} {policy : Policy} {want : Image}
  {start : ℕ}

/-! ## Reading -/

theorem readPieces_ends {ps : List Span} {a b : ℕ} (hps : Span.Tiles ps a b)
    (hb : b ≤ e.memory.size) (h : e.Untouched s.device) :
    Ends (readPieces device ps (e.memory.extract 0 a)) s fun r s' =>
      r = (.ok (), e.memory.extract 0 b) ∧ e.Untouched s'.device := by
  induction ps generalizing a s with
  | nil =>
    cases hps
    exact ⟨rfl, h⟩
  | cons p ps ih =>
    obtain ⟨rfl, hrest⟩ := hps
    have hle : p.start + p.len ≤ s.device.memory.size := by
      rw [h.memory]
      exact hrest.le.trans hb
    obtain ⟨bytes, hresult, hbytes⟩ := read_inside hle
    have hask : Ends (Device.ask (device.read p.start p.len)) s fun r s' =>
        r = .ok bytes ∧ e.Untouched s'.device :=
      ends_ask ⟨hresult, h.trans (read_untouched _ _ _)⟩
    have happend : e.memory.extract 0 p.start ++ bytes.toArray = e.memory.extract 0 p.stop := by
      rw [hbytes, h.memory, Image.slice, Array.extract_append_extract, Nat.zero_min,
        Nat.max_eq_right (Nat.le_add_right _ _)]
      rfl
    -- what is read so far is the memory up to the start of this piece
    unfold readPieces
    refine Ends.bind hask ?_
    rintro _ s₁ ⟨rfl, h₁⟩
    refine Ends.bind (R := fun _ s' => e.Untouched s'.device) (ends_report h₁) fun _ s₂ h₂ => ?_
    rw [happend]
    exact ih hrest h₂

/-- **Reading the chip gives its memory.** -/
theorem readImage_ends (hsize : e.memory.size = chip.totalSize) (h : e.Untouched s.device) :
    Ends (readImage device chip) s fun r s' => r = .ok e.memory ∧ e.Untouched s'.device := by
  have htiles : Span.Tiles (Span.pieces ⟨0, chip.totalSize⟩ readPieceSize) 0 (0 + chip.totalSize) :=
    Span.tiles_pieces (by decide)
  have hread : Ends (readChip device chip.totalSize) s fun r s' =>
      r = (.ok (), e.memory) ∧ e.Untouched s'.device := by
    unfold readChip
    refine Ends.bind (R := fun _ s' => e.Untouched s'.device) (ends_report h) fun _ s₁ h₁ => ?_
    have hpieces := readPieces_ends htiles (by omega) h₁
    rw [Array.extract_zero] at hpieces
    refine Ends.bind hpieces ?_
    rintro _ s₂ ⟨rfl, h₂⟩
    refine ⟨?_, h₂⟩
    show (_, Image.resize (e.memory.extract 0 (0 + chip.totalSize)) chip.totalSize) = _
    rw [Nat.zero_add, ← hsize, Array.extract_size, Image.resize, if_neg (Nat.lt_irrefl _),
      Nat.sub_self]
    exact congrArg _ (Array.append_empty)
  unfold readImage
  refine hread.liftThen ?_
  rintro _ s' ⟨rfl, h'⟩
  exact ⟨rfl, h'⟩

/-- Old contents that are read are the memory. -/
theorem oldContents_read (assumed : UInt8) (hsize : e.memory.size = chip.totalSize)
    (h : e.Untouched s.device) :
    Ends (oldContents device chip assumed .readChip) s fun r s' =>
      r = .ok (e.memory, .diff) ∧ e.Untouched s'.device :=
  (readImage_ends hsize h).relabelThen fun _ h₁ => ends_pure ⟨rfl, h₁⟩

/-- **Old contents that are true** are the memory, wherever they come from. -/
theorem oldContents_ends {source : OldContents} (hold : source.Tells chip e.memory)
    (hsize : e.memory.size = chip.totalSize) (h : e.Untouched s.device) :
    Ends (oldContents device chip chip.erasedValue source) s fun r s' =>
      (∃ mode, r = .ok (e.memory, mode)) ∧ e.Untouched s'.device := by
  cases source with
  | readChip =>
    refine (oldContents_read chip.erasedValue hsize h).mono ?_
    rintro _ s' ⟨rfl, h'⟩
    exact ⟨⟨.diff, rfl⟩, h'⟩
  | reference image =>
    refine Ends.exceptThen (fun _ _ => ends_pure ⟨⟨.diff, ?_⟩, h⟩) fun err herr => ?_
    · rw [show image = e.memory from hold]
    · exact absurd (hold ▸ hsize) (checkSize_error herr).2
  | noDiff =>
    refine ends_pure ⟨⟨.wholeChip, ?_⟩, h⟩
    rw [show e.memory = _ from hold]

/-! ## Verifying -/

theorem access_open {c : EmulatorConfig} (h : c.protectedRanges = []) (a n : ℕ) :
    access c a n = .ok () := by
  unfold access
  rw [h]
  rfl

/-- Parts of a range that may be accessed may be accessed. -/
theorem access_mono {c : EmulatorConfig} {a n a' n' : ℕ} (h : access c a n = .ok ()) (ha : a ≤ a')
    (hn : a' + n' ≤ a + n) : access c a' n' = .ok () := by
  unfold access at h ⊢
  dsimp only at h ⊢
  split at h
  · cases h
  · rename_i hnone
    rw [if_neg]
    intro hany
    obtain ⟨r, hr, hmeets⟩ := List.any_eq_true.1 hany
    refine hnone (List.any_eq_true.2 ⟨r, hr, ?_⟩)
    unfold AddressRange.meets at hmeets ⊢
    rw [Bool.and_eq_true, decide_eq_true_eq, decide_eq_true_eq] at hmeets ⊢
    omega

/-- Access is denied or granted, and nothing else. -/
theorem access_error {c : EmulatorConfig} {a n : ℕ} {err : FlashError}
    (h : access c a n = .error err) : err = .accessDenied a := by
  unfold access at h
  dsimp only at h
  split at h
  · cases h
    rfl
  · cases h

/-- A range that may be accessed has no protected address. -/
theorem not_mem_of_access {c : EmulatorConfig} {a n i : ℕ} {r : AddressRange}
    (h : access c a n = .ok ()) (hr : r ∈ c.protectedRanges) (hi : i ∈ (⟨a, n⟩ : Span))
    (hlimit : i < addressLimit) : i ∉ r := by
  rintro ⟨h1, h2⟩
  obtain ⟨h3, h4⟩ := Span.mem_def.1 hi
  unfold access at h
  dsimp only at h h3 h4
  rw [if_pos] at h
  · cases h
  · refine List.any_eq_true.2 ⟨r, hr, ?_⟩
    unfold AddressRange.meets
    rw [Bool.and_eq_true, decide_eq_true_eq, decide_eq_true_eq]
    omega

/-- The piece is as expected, or access to it is denied and the policy ignores that. -/
def Passes (e : Emulator) (policy : Policy) (want : Image) (start : ℕ) (p : Span) : Prop :=
  match access e.config (start + p.start) p.len with
  | .ok () => Image.slice want p = Image.slice e.memory ⟨start + p.start, p.len⟩
  | .error err => policy.ignores err = true

/-- What the chip shows: all of its memory, and what is protected. -/
def view (e : Emulator) : View := ⟨e.memory, fun _ => False, access e.config⟩

theorem readable_view (e : Emulator) (t : Span) : e.view.Readable t := fun _ _ h => h

/-- **Reading the chip shows it.** -/
theorem reveals_view (e : Emulator) : device.Reveals e.Untouched e.view := by
  refine ⟨readsKeep_untouched e, fun a n s h => ?_, fun a n s h hle _ => ?_,
    fun a n s h _ hno => ?_⟩
  · show access s.config a n = access e.config a n
    rw [h.config]
  · have hin : a + n ≤ s.memory.size := hle.trans_eq (congrArg Array.size h.memory.symm)
    obtain ⟨bytes, hresult, hbytes⟩ := read_inside hin
    exact ⟨bytes, hresult, hbytes.trans (by rw [h.memory]; rfl)⟩
  · exact absurd (readable_view e _) hno

theorem passes_view {p : Span} :
    e.view.Passes policy want start p ↔ e.Passes policy want start p := by
  have hread : e.view.Readable ⟨start + p.start, p.len⟩ := readable_view e _
  unfold Passes
  cases haccess : access e.config (start + p.start) p.len with
  | ok _ => exact View.passes_iff haccess hread
  | error err => exact ⟨fun h => h.refused err haccess, View.passes_of_refused haccess⟩

/-- Nothing of the memory is hidden, so it is compared. -/
theorem confirms_view : e.view.Confirms chip policy want start ↔
    ∀ p ∈ Span.pieces ⟨0, want.size⟩ (max chip.pageSize 1), e.Passes policy want start p :=
  (or_iff_right fun hun => hun.refused (readable_view e _)).trans
    (forall₂_congr fun _ _ => passes_view)

/-- **Verification succeeds exactly if every piece passes**, in paranoid mode and otherwise. -/
theorem verifyRange_ends (chip : Chip) (policy : Policy)
    (hstart : start + want.size ≤ e.memory.size) (h : e.Untouched s.device) :
    Ends (verifyRange device chip want start policy) s fun r s' => e.Untouched s'.device ∧
      (r = .ok () ↔ ∀ p ∈ Span.pieces ⟨0, want.size⟩ (max chip.pageSize 1),
        e.Passes policy want start p) :=
  (verifyRange_reveals (reveals_view e) chip policy hstart h).mono fun _ _ hr =>
    ⟨hr.1, hr.2.trans confirms_view⟩

/-- The pieces together are as expected exactly if the whole is. -/
theorem slices_eq_iff {n : ℕ} (hn : 0 < n) (hstart : start + want.size ≤ e.memory.size) :
    (∀ p ∈ Span.pieces ⟨0, want.size⟩ n,
      Image.slice want p = Image.slice e.memory ⟨start + p.start, p.len⟩) ↔
        Image.slice e.memory ⟨start, want.size⟩ = want := by
  constructor
  · intro h
    refine Image.ext_byte (Image.size_slice hstart) fun i hi => ?_
    rw [Image.size_slice hstart] at hi
    dsimp only at hi
    -- every address of the range lies in one of the pieces
    obtain ⟨p, hp, h1, h2⟩ := (Span.mem_pieces (s := ⟨0, want.size⟩) hn).2
      ⟨Nat.zero_le i, by dsimp only; omega⟩
    have := congrArg (Image.byte · (i - p.start)) (h p hp)
    rw [Image.byte_slice (by omega), Image.byte_slice (by dsimp only; omega)] at this
    dsimp only at this
    rw [Image.byte_slice hi, ← Nat.add_sub_cancel' h1, this, Nat.add_assoc]
  · intro h p hp
    have hle := (Span.pieces_inside hp).2
    dsimp only at hle
    rw [← Image.slice_slice (n := want.size) (by omega), h]

/-- Where access is granted, the contents have to be right. -/
theorem confirms_iff (hopen : access e.config start want.size = .ok ())
    (hstart : start + want.size ≤ e.memory.size) : e.view.Confirms chip policy want start ↔
      Image.slice e.memory ⟨start, want.size⟩ = want := by
  rw [confirms_view, ← slices_eq_iff (n := max chip.pageSize 1) (by omega) hstart]
  refine forall₂_congr fun p hp => ?_
  have hin := (Span.pieces_inside hp).2
  dsimp only at hin
  unfold Passes
  rw [access_mono hopen (Nat.le_add_right _ _) (by omega)]

/-- **Where access is granted, verification succeeds exactly if the contents are right.** -/
theorem verifyRange_granted (chip : Chip) (policy : Policy)
    (hopen : access e.config start want.size = .ok ())
    (hstart : start + want.size ≤ e.memory.size) (h : e.Untouched s.device) :
    Ends (verifyRange device chip want start policy) s fun r s' => e.Untouched s'.device ∧
      (r = .ok () ↔ Image.slice e.memory ⟨start, want.size⟩ = want) :=
  (verifyRange_reveals (reveals_view e) chip policy hstart h).mono fun _ _ hr =>
    ⟨hr.1, hr.2.trans (confirms_iff hopen hstart)⟩

/-- **Without protected ranges**, it always does so. -/
theorem verifyRange_open (chip : Chip) (policy : Policy) (hopen : e.config.protectedRanges = [])
    (hstart : start + want.size ≤ e.memory.size) (h : e.Untouched s.device) :
    Ends (verifyRange device chip want start policy) s fun r s' => e.Untouched s'.device ∧
      (r = .ok () ↔ Image.slice e.memory ⟨start, want.size⟩ = want) :=
  verifyRange_granted chip policy (access_open hopen _ _) hstart h

/-- **The verification of a plan**, in any mode, without protected ranges. -/
theorem verifyPlan_open (chip : Chip) {plan : Plan} {mode : VerifyMode} (policy : Policy)
    (hopen : e.config.protectedRanges = []) (hsize : plan.new.size = e.memory.size)
    (hin : ∀ t ∈ plan.verified mode, t.stop ≤ e.memory.size) (h : e.Untouched s.device) :
    Ends (verifyPlan device chip plan mode policy) s fun r s' => e.Untouched s'.device ∧
      (r = .ok () ↔ ∀ t ∈ plan.verified mode, Image.Agree t e.memory plan.new) := by
  refine (verifyPlan_reveals (reveals_view e) chip policy hin h).mono fun r s' hr =>
    ⟨hr.1, hr.2.trans (forall₂_congr fun t ht => ?_)⟩
  have hlen : (Image.slice plan.new t).size = t.len := Image.size_slice (hsize ▸ hin t ht)
  rw [confirms_iff (access_open hopen _ _) (hlen.symm ▸ hin t ht), hlen,
    Image.agree_iff_slice (hin t ht) (hsize ▸ hin t ht)]

end Reflash.Emulator
