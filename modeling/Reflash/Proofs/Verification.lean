import Reflash.Proofs.Device
import Reflash.Proofs.Image
import Reflash.Proofs.Span

/-!
# What verification compares

A device shows its contents, except at addresses that cannot be read, and refuses
access to some ranges (`View`). Verification goes through the pieces of a range. In
paranoid mode it reads each of them on its own, and otherwise all of them in one go.
So a range with one hidden byte in it is not compared at all then, while in paranoid
mode only the pieces with hidden bytes are left out.

* `checkEach_reveals`, `checkRead_reveals`: the two ways of comparing the pieces.
* `verifyRange_reveals`: when the verification of a range succeeds.
* `verifyPlan_reveals`: the same for all ranges that a mode asks for.
-/

namespace Reflash

theorem Mismatch.find?_eq_none_iff {want found : Image} {a : ℕ} (h : want.size = found.size) :
    Mismatch.find? want found a = none ↔ want = found := by
  unfold Mismatch.find?
  rw [Option.map_eq_none_iff, Span.find?_eq_none_iff]
  constructor
  · intro hall
    refine Image.ext_byte h fun i hi => ?_
    have := hall i ⟨Nat.zero_le _, by simp only [Image.shared]; omega⟩
    simpa [Image.differsAt] using this
  · rintro rfl i -
    simp [Image.differsAt]

/-- What the policy does about an error of denied access. -/
theorem Policy.ignores_denied {policy : Policy} {err : FlashError} (h : err.isAccessDenied = true) :
    policy.ignores err = true ↔ policy.accessDenied = .ignore := by
  unfold Policy.ignores
  rw [h, Bool.true_and, beq_iff_eq]

/-! ## What a device shows -/

/-- What a device shows of itself. -/
structure View where
  memory : Image
  /-- The address cannot be read, alone or as a part of a range. -/
  hidden : ℕ → Prop
  /-- What the check of access to a range comes to. -/
  access : ℕ → ℕ → Except FlashError Unit

namespace View

/-- No address of the range is hidden. -/
def Readable (v : View) (t : Span) : Prop := ∀ a ∈ t, ¬v.hidden a

/-- Of `want`, which is expected from `start` on, the piece `p` passes: where access is granted it
is as expected, if it can be read. That it cannot, or that access is refused, is ignored. -/
structure Passes (v : View) (policy : Policy) (want : Image) (start : ℕ) (p : Span) : Prop where
  refused : ∀ err, v.access (start + p.start) p.len = .error err → policy.ignores err = true
  unreadable : v.access (start + p.start) p.len = .ok () →
    ¬v.Readable ⟨start + p.start, p.len⟩ → policy.accessDenied = .ignore
  equal : v.access (start + p.start) p.len = .ok () → v.Readable ⟨start + p.start, p.len⟩ →
    Image.slice want p = Image.slice v.memory ⟨start + p.start, p.len⟩

/-- The range is read in one go, which is refused, and that is ignored. -/
structure Unseen (v : View) (policy : Policy) (t : Span) : Prop where
  whole : policy.paranoid = false
  ignored : policy.accessDenied = .ignore
  refused : ¬v.Readable t

/-- Every piece of what is expected from `start` on passes, or nothing is compared. -/
def Confirms (v : View) (chip : Chip) (policy : Policy) (want : Image) (start : ℕ) : Prop :=
  v.Unseen policy ⟨start, want.size⟩ ∨
    ∀ p ∈ Span.pieces ⟨0, want.size⟩ (max chip.pageSize 1), v.Passes policy want start p

variable {v : View} {policy : Policy} {want : Image} {start : ℕ} {p s t : Span}

/-- A part of a readable range is readable. -/
theorem Readable.mono (h : v.Readable t) (hst : s.Within t) : v.Readable s :=
  fun a ha => h a (hst a ha)

/-- Where access is granted, a readable piece has to be as expected. -/
theorem passes_iff (hgranted : v.access (start + p.start) p.len = .ok ())
    (hread : v.Readable ⟨start + p.start, p.len⟩) : v.Passes policy want start p ↔
      Image.slice want p = Image.slice v.memory ⟨start + p.start, p.len⟩ := by
  refine ⟨fun h => h.equal hgranted hread, fun h => ⟨fun err herr => ?_, fun _ hno => ?_,
    fun _ _ => h⟩⟩
  · rw [hgranted] at herr
    cases herr
  · exact absurd hread hno

/-- An unreadable piece passes if that is ignored. -/
theorem passes_of_ignored (hgranted : v.access (start + p.start) p.len = .ok ())
    (hread : ¬v.Readable ⟨start + p.start, p.len⟩) (hign : policy.accessDenied = .ignore) :
    v.Passes policy want start p := by
  refine ⟨fun err herr => ?_, fun _ _ => hign, fun _ h => absurd h hread⟩
  rw [hgranted] at herr
  cases herr

/-- A piece to which access is refused passes if that is ignored. -/
theorem passes_of_refused {err : FlashError}
    (hrefused : v.access (start + p.start) p.len = .error err) (hign : policy.ignores err = true) :
    v.Passes policy want start p := by
  refine ⟨fun err' herr => ?_, fun hok => ?_, fun hok => ?_⟩
  · rw [hrefused] at herr
    cases herr
    exact hign
  all_goals
    rw [hrefused] at hok
    cases hok

/-- A piece that cannot be read does not pass if no denial is ignored. -/
theorem not_passes (hread : ¬v.Readable ⟨start + p.start, p.len⟩)
    (hign : policy.accessDenied ≠ .ignore) : ¬v.Passes policy want start p := by
  intro h
  cases haccess : v.access (start + p.start) p.len with
  | ok _ => exact hign (h.unreadable haccess hread)
  | error err =>
    have hignored := h.refused err haccess
    unfold Policy.ignores at hignored
    rw [Bool.and_eq_true, beq_iff_eq] at hignored
    exact hign hignored.2

/-- A piece inside what is expected lies inside the range. -/
theorem within_range (hp : p.start + p.len ≤ want.size) :
    Span.Within ⟨start + p.start, p.len⟩ ⟨start, want.size⟩ := by
  intro a ha
  rw [Span.mem_def] at ha ⊢
  dsimp only at ha ⊢
  omega

/-- In a range that cannot be read, there is a piece that cannot. -/
theorem exists_unreadable {n : ℕ} (hn : 0 < n) (h : ¬v.Readable ⟨start, want.size⟩) :
    ∃ p ∈ Span.pieces ⟨0, want.size⟩ n, ¬v.Readable ⟨start + p.start, p.len⟩ := by
  unfold Readable at h
  push Not at h
  obtain ⟨a, ha, hhidden⟩ := h
  rw [Span.mem_def] at ha
  dsimp only at ha
  obtain ⟨p, hp, hap⟩ := (Span.mem_pieces (s := ⟨0, want.size⟩) (a := a - start) hn).2
    ⟨Nat.zero_le _, by dsimp only; omega⟩
  rw [Span.mem_def] at hap
  refine ⟨p, hp, fun hread => hread a ?_ hhidden⟩
  rw [Span.mem_def]
  dsimp only
  omega

end View

variable {σ : Type} {d : Device σ} {I : σ → Prop} {v : View} {s : Session σ} {chip : Chip}
  {policy : Policy} {want : Image} {start : ℕ}

/-- As long as the device has `I`, it shows `v`: a range of the memory is read as it is, or denied
if some address in it is hidden. -/
structure Device.Reveals (d : Device σ) (I : σ → Prop) (v : View) : Prop
    extends d.ReadsKeep I where
  checks : ∀ a n s, I s → (d.checkAccess a n s).result = v.access a n
  shows : ∀ a n s, I s → a + n ≤ v.memory.size → v.Readable ⟨a, n⟩ →
    ∃ bytes, (d.read a n s).result = .ok bytes ∧ bytes.toArray = Image.slice v.memory ⟨a, n⟩
  hides : ∀ a n s, I s → a + n ≤ v.memory.size → ¬v.Readable ⟨a, n⟩ →
    ∃ err, (d.read a n s).result = .error err ∧ err.isAccessDenied = true

/-- What the device shows depends on its state, and reading does not change it. -/
def Device.Visible (d : Device σ) (view : σ → View) : Prop :=
  ∀ s, d.Reveals (fun s' => view s' = view s) (view s)

/-! ## Checks and reads -/

/-- Access is granted, or refused and ignored, or refused and an error. -/
theorem absorb_check (hd : d.Reveals I v) (policy : Policy) (a n : ℕ) (h : I s.device) :
    Ends (policy.absorb (Device.ask (d.checkAccess a n))) s fun r s' => I s'.device ∧ match r with
      | .ok (.ok _) => v.access a n = .ok ()
      | .ok (.error err) => v.access a n = .error err ∧ policy.ignores err = true
      | .error err => v.access a n = .error err ∧ policy.ignores err ≠ true := by
  have hresult : (d.checkAccess a n s.device).result = v.access a n := hd.checks a n s.device h
  have hnext : I (d.checkAccess a n s.device).device := hd.access a n s.device h
  refine ends_absorb (ends_ask ?_)
  rw [hresult]
  cases v.access a n with
  | ok _ => exact ⟨hnext, rfl⟩
  | error err => dsimp only; split <;> exact ⟨hnext, rfl, ‹_›⟩

/-- A piece to which access is refused passes exactly if that is ignored. -/
theorem accessible_piece (hd : d.Reveals I v) (policy : Policy) (want : Image) (start : ℕ)
    (p : Span) (h : I s.device) :
    Ends (accessible d policy (start + p.start) p.len) s fun r s' => I s'.device ∧
      match r with
      | .ok true => v.access (start + p.start) p.len = .ok ()
      | .ok false => v.Passes policy want start p
      | .error _ => ¬v.Passes policy want start p := by
  unfold accessible
  refine (absorb_check hd policy _ _ h).andThen ?_ ?_
  · rintro (err | _) s₁ ⟨h₁, haccess⟩
    · exact Ends.noteThen (ends_pure ⟨h₁, View.passes_of_refused haccess.1 haccess.2⟩)
    · exact ends_pure ⟨h₁, haccess⟩
  · rintro err s₁ ⟨h₁, haccess, hign⟩
    exact ⟨h₁, fun hpass => hign (hpass.refused err haccess)⟩

/-- A range is read as it is, or it cannot be read. -/
theorem absorb_read (hd : d.Reveals I v) {a n : ℕ} (hle : a + n ≤ v.memory.size) (h : I s.device) :
    Ends (policy.absorb (Device.ask (d.read a n))) s fun r s' => I s'.device ∧ match r with
      | .ok (.ok bytes) => v.Readable ⟨a, n⟩ ∧ bytes.toArray = Image.slice v.memory ⟨a, n⟩
      | .ok (.error _) => ¬v.Readable ⟨a, n⟩ ∧ policy.accessDenied = .ignore
      | .error _ => ¬v.Readable ⟨a, n⟩ ∧ policy.accessDenied ≠ .ignore := by
  have hnext : I (d.read a n s.device).device := hd.read a n s.device h
  refine ends_absorb (ends_ask ?_)
  by_cases hread : v.Readable ⟨a, n⟩
  · obtain ⟨bytes, hresult, hbytes⟩ := hd.shows a n s.device h hle hread
    rw [hresult]
    exact ⟨hnext, hread, hbytes⟩
  · obtain ⟨err, hresult, hdenied⟩ := hd.hides a n s.device h hle hread
    rw [hresult]
    dsimp only
    split
    · exact ⟨hnext, hread, (Policy.ignores_denied hdenied).1 ‹_›⟩
    · exact ⟨hnext, hread, fun hign => absurd ((Policy.ignores_denied hdenied).2 hign) ‹_›⟩

/-! ## The pieces of a range -/

/-- A piece inside both the memory and what is expected is compared in full. -/
theorem size_slices {p : Span} (hp : p.start + p.len ≤ want.size)
    (hstart : start + want.size ≤ v.memory.size) :
    (Image.slice want p).size = (Image.slice v.memory ⟨start + p.start, p.len⟩).size := by
  rw [Image.size_slice hp, Image.size_slice (by dsimp only; omega)]

/-- **Piece after piece**, each read on its own. -/
theorem checkEach_reveals (hd : d.Reveals I v) {ps : List Span}
    (hps : ∀ p ∈ ps, p.start + p.len ≤ want.size) (hstart : start + want.size ≤ v.memory.size)
    (h : I s.device) :
    Ends (checkEach d policy want start ps) s fun r s' => I s'.device ∧
      (r = .ok none ↔ ∀ p ∈ ps, v.Passes policy want start p) := by
  induction ps generalizing s with
  | nil => exact ends_pure ⟨h, by simp⟩
  | cons p ps ih =>
    have hp := hps p List.mem_cons_self
    -- what the other pieces come to, after one that passes
    have hrest : ∀ {s : Session σ}, I s.device → v.Passes policy want start p →
        Ends (checkEach d policy want start ps) s fun r s' => I s'.device ∧
          (r = .ok none ↔ v.Passes policy want start p ∧ ∀ q ∈ ps, v.Passes policy want start q) :=
      fun h hpass => (ih (fun q hq => hps q (List.mem_cons_of_mem _ hq)) h).mono
        fun r s' hr => ⟨hr.1, hr.2.trans (and_iff_right hpass).symm⟩
    rw [List.forall_mem_cons]
    unfold checkEach
    refine (accessible_piece hd policy want start p h).andThen ?_ fun err s₁ h₁ =>
      ⟨h₁.1, by simp [h₁.2]⟩
    rintro (_ | _) s₁ ⟨h₁, hpass⟩
    · exact hrest h₁ hpass
    · rw [if_pos rfl]
      refine (absorb_read hd (by omega) h₁).andThen ?_ ?_
      · rintro (err | bytes) s₂ ⟨h₂, hread⟩
        · exact hrest h₂ (View.passes_of_ignored hpass hread.1 hread.2)
        · obtain ⟨hread, hbytes⟩ := hread
          have hfind := Mismatch.find?_eq_none_iff (a := start + p.start) (size_slices hp hstart)
          have heq : v.Passes policy want start p ↔ _ := View.passes_iff hpass hread
          rw [← heq, ← hbytes] at hfind
          dsimp only
          cases hm : Mismatch.find? (Image.slice want p) bytes.toArray (start + p.start) with
          | some m => exact ends_pure ⟨h₂, by simp [← hfind, hm]⟩
          | none => exact hrest h₂ (hfind.1 hm)
      · rintro err s₂ ⟨h₂, hread⟩
        exact ⟨h₂, by simp [View.not_passes hread.1 hread.2]⟩

/-- **Piece after piece**, from a readable range that was read in one go. -/
theorem checkRead_reveals (hd : d.Reveals I v) {ps : List Span} {first : Option Mismatch}
    (hps : ∀ p ∈ ps, p.start + p.len ≤ want.size) (hstart : start + want.size ≤ v.memory.size)
    (hread : v.Readable ⟨start, want.size⟩) (h : I s.device) :
    Ends (checkRead d policy want (Image.slice v.memory ⟨start, want.size⟩) start ps first) s
      fun r s' => I s'.device ∧
        (r = .ok none ↔ first = none ∧ ∀ p ∈ ps, v.Passes policy want start p) := by
  induction ps generalizing s first with
  | nil => exact ends_pure ⟨h, by simp⟩
  | cons p ps ih =>
    have hp := hps p List.mem_cons_self
    have ih := fun {s : Session σ} (h : I s.device) (first : Option Mismatch) =>
      @ih s first (fun q hq => hps q (List.mem_cons_of_mem _ hq)) h
    rw [List.forall_mem_cons]
    unfold checkRead
    refine (accessible_piece hd policy want start p h).andThen ?_ fun err s₁ h₁ =>
      ⟨h₁.1, by simp [h₁.2]⟩
    rintro (_ | _) s₁ ⟨h₁, hpass⟩
    · exact (ih h₁ first).mono fun r s' hr => ⟨hr.1, by rw [hr.2, and_iff_right hpass]⟩
    · rw [if_pos rfl, Image.slice_slice hp]
      have hfind := Mismatch.find?_eq_none_iff (a := start + p.start) (size_slices hp hstart)
      have heq : v.Passes policy want start p ↔ _ :=
        View.passes_iff hpass (hread.mono (View.within_range hp))
      rw [← heq] at hfind
      cases hm : Mismatch.find? (Image.slice want p)
          (Image.slice v.memory ⟨start + p.start, p.len⟩) (start + p.start) with
      | some m => exact (ih h₁ _).mono fun r s' hr => ⟨hr.1, by rw [hr.2]; simp [← hfind, hm]⟩
      | none => exact (ih h₁ _).mono fun r s' hr =>
          ⟨hr.1, by rw [hr.2, and_iff_right (hfind.1 hm)]⟩

/-! ## Ranges -/

/-- The two ways of comparing a range. -/
theorem findMismatch_reveals (hd : d.Reveals I v) (chip : Chip) (policy : Policy)
    (hstart : start + want.size ≤ v.memory.size) (h : I s.device) :
    Ends (findMismatch d chip want start policy) s fun r s' => I s'.device ∧
      (r = .ok none ↔ v.Confirms chip policy want start) := by
  have hpos : 0 < max chip.pageSize 1 := by omega
  have hps : ∀ p ∈ Span.pieces ⟨0, want.size⟩ (max chip.pageSize 1), p.start + p.len ≤ want.size :=
    fun p hp => (Span.pieces_inside hp).2.trans_eq (Nat.zero_add _)
  have hseen : ¬v.Unseen policy ⟨start, want.size⟩ → (v.Confirms chip policy want start ↔
      ∀ p ∈ Span.pieces ⟨0, want.size⟩ (max chip.pageSize 1), v.Passes policy want start p) :=
    fun hno => or_iff_right hno
  unfold findMismatch
  dsimp only
  split
  · rename_i hparanoid
    rw [hseen fun hun => by rw [hun.whole] at hparanoid; cases hparanoid]
    exact checkEach_reveals hd hps hstart h
  · rename_i hwhole
    refine (absorb_read hd hstart h).andThen ?_ ?_
    · rintro (err | bytes) s₁ ⟨h₁, hread⟩
      · -- nothing is compared
        refine Ends.noteThen (ends_pure ⟨h₁, iff_of_true rfl (.inl ?_)⟩)
        exact ⟨Bool.eq_false_iff.2 hwhole, hread.2, hread.1⟩
      · obtain ⟨hread, hbytes⟩ := hread
        rw [hseen fun hun => hun.refused hread]
        dsimp only
        rw [hbytes]
        exact (checkRead_reveals hd hps hstart hread h₁).mono fun r s' hr =>
          ⟨hr.1, by simp [hr.2]⟩
    · rintro err s₁ ⟨h₁, hread, hign⟩
      -- some piece cannot be read either
      obtain ⟨p, hp, hunreadable⟩ := View.exists_unreadable hpos hread
      refine ⟨h₁, iff_of_false (fun hok => by cases hok) ?_⟩
      rintro (hun | hall)
      · exact hign hun.ignored
      · exact View.not_passes hunreadable hign (hall p hp)

/-- **The verification of a range** succeeds exactly if every piece passes, or if the range is read
in one go, which is refused, and that is ignored. -/
theorem verifyRange_reveals (hd : d.Reveals I v) (chip : Chip) (policy : Policy)
    (hstart : start + want.size ≤ v.memory.size) (h : I s.device) :
    Ends (verifyRange d chip want start policy) s fun r s' => I s'.device ∧
      (r = .ok () ↔ v.Confirms chip policy want start) := by
  unfold verifyRange
  split
  · rename_i hempty
    have hsize : want.size = 0 := by simpa using hempty
    refine ends_pure ⟨h, iff_of_true rfl (.inr ?_)⟩
    rw [Span.pieces_of_len_eq_zero hsize]
    exact fun p hp => by cases hp
  · refine (findMismatch_reveals hd chip policy hstart h).andThen ?_ ?_
    · rintro (_ | m) s₁ ⟨h₁, hr⟩
      · exact ends_pure ⟨h₁, by simpa using hr⟩
      · exact Ends.noteThen (ends_throw ⟨h₁, by simpa using hr⟩)
    · rintro err s₁ ⟨h₁, hr⟩
      exact ⟨h₁, by simpa using hr⟩

/-! ## Plans -/

/-- The ranges that are verified in a mode. -/
def Plan.verified (plan : Plan) : VerifyMode → List Span
  | .off => []
  | .units => plan.units.map ProcessingUnit.span
  | .chip => [⟨0, plan.new.size⟩]

/-- They lie inside the image if the units do. -/
theorem verified_inside {plan : Plan} {mode : VerifyMode}
    (hunits : ∀ u ∈ plan.units, u.stop ≤ plan.new.size) {t : Span} (ht : t ∈ plan.verified mode) :
    t.stop ≤ plan.new.size := by
  cases mode with
  | off => cases ht
  | units =>
    obtain ⟨u, hu, rfl⟩ := List.mem_map.1 ht
    exact hunits u hu
  | chip =>
    cases List.mem_singleton.1 ht
    exact (Nat.zero_add _).le

/-- A verification in context succeeds exactly if it does so without. -/
theorem verifyRange_relabel {ε : Type} {f : FlashError → ε} (hd : d.Reveals I v)
    (hstart : start + want.size ≤ v.memory.size) (h : I s.device) :
    Ends ((verifyRange d chip want start policy).relabel f) s fun r s' => I s'.device ∧
      (r = .ok () ↔ v.Confirms chip policy want start) := by
  refine ends_relabel ((verifyRange_reveals hd chip policy hstart h).mono fun r s' hr => ?_)
  refine ⟨hr.1, Iff.trans ?_ hr.2⟩
  cases r <;> simp [Except.mapError]

theorem verifyUnits_reveals (hd : d.Reveals I v) {us : List ProcessingUnit}
    (hus : ∀ u ∈ us, u.stop ≤ v.memory.size) (h : I s.device) :
    Ends (verifyUnits d chip want policy us) s fun r s' => I s'.device ∧ (r = .ok () ↔
      ∀ t ∈ us.map ProcessingUnit.span, v.Confirms chip policy (Image.slice want t) t.start) := by
  induction us generalizing s with
  | nil => exact ends_pure ⟨h, iff_of_true rfl fun _ ht => by cases ht⟩
  | cons u us ih =>
    obtain ⟨hu, hus⟩ := List.forall_mem_cons.1 hus
    rw [List.map_cons, List.forall_mem_cons]
    have hstart : u.offset + (Image.slice want u.span).size ≤ v.memory.size := by
      rw [Image.slice, Array.size_extract]
      unfold ProcessingUnit.stop at hu
      unfold ProcessingUnit.span
      dsimp only
      omega
    unfold verifyUnits
    refine (verifyRange_relabel hd hstart h).andThen ?_ ?_
    · rintro _ s₁ ⟨h₁, hr⟩
      have hunit : v.Confirms chip policy (Image.slice want u.span) u.offset := hr.1 rfl
      exact (ih hus h₁).mono fun r s' hr => ⟨hr.1, hr.2.trans (and_iff_right hunit).symm⟩
    · rintro err s₁ ⟨h₁, hr⟩
      refine ⟨h₁, iff_of_false (fun hok => by cases hok) fun hall => ?_⟩
      cases hr.2 hall.1

/-- **The verification of a plan** succeeds exactly if that of every range does. -/
theorem verifyPlan_reveals (hd : d.Reveals I v) (chip : Chip) {plan : Plan} {mode : VerifyMode}
    (policy : Policy) (hin : ∀ t ∈ plan.verified mode, t.stop ≤ v.memory.size) (h : I s.device) :
    Ends (verifyPlan d chip plan mode policy) s fun r s' => I s'.device ∧ (r = .ok () ↔
      ∀ t ∈ plan.verified mode, v.Confirms chip policy (Image.slice plan.new t) t.start) := by
  cases mode with
  | off => exact ends_pure ⟨h, iff_of_true rfl fun _ ht => by cases ht⟩
  | units =>
    refine Ends.noteThen (verifyUnits_reveals hd (fun u hu => ?_) h)
    exact hin _ (List.mem_map_of_mem hu)
  | chip =>
    have hstart : 0 + plan.new.size ≤ v.memory.size := hin _ (List.mem_singleton_self _)
    have hall : Image.slice plan.new ⟨0, plan.new.size⟩ = plan.new := by
      rw [Image.slice, Nat.zero_add, Array.extract_size]
    refine Ends.noteThen (Ends.mono (verifyRange_relabel hd hstart h) fun r s' hr => ?_)
    refine ⟨hr.1, hr.2.trans ?_⟩
    unfold Plan.verified
    rw [List.forall_mem_singleton, hall]

/-! ## An example -/

/-- A memory that takes every erase and every write. Some of its addresses cannot be read. -/
def Device.veiled (hidden : Span) : Device Image where
  read address len m :=
    if (Span.mk address len).any fun a => a ∈ hidden then
      .quiet (.error (.accessDenied address)) m
    else if h : address + len ≤ m.size then
      .quiet (.ok ⟨Image.slice m ⟨address, len⟩, Image.size_slice h⟩) m
    else .quiet (.error .outOfBounds) m
  write address data m := .quiet (.ok ()) (Image.overlay m address data)
  erase _ address len m := .quiet (.ok ()) (Image.overlay m address (Image.blank len 0xFF))

/-- What it shows. -/
def View.veiled (hidden : Span) (m : Image) : View := ⟨m, (· ∈ hidden), fun _ _ => .ok ()⟩

theorem visible_veiled (hidden : Span) : (Device.veiled hidden).Visible (View.veiled hidden) := by
  intro m
  have hdenied : ∀ {a n : ℕ}, ((Span.mk a n).any fun i => decide (i ∈ hidden)) = true ↔
      ¬(View.veiled hidden m).Readable ⟨a, n⟩ := by
    intro a n
    rw [Span.any_iff]
    simp [View.Readable, View.veiled]
  have hquiet : ∀ a n m', ((Device.veiled hidden).read a n m').device = m' := by
    intro a n m'
    simp only [Device.veiled]
    split
    · rfl
    · split <;> rfl
  refine ⟨⟨fun a n m' hm => ?_, fun _ _ _ _ hm => hm, fun _ _ _ hm => hm⟩, fun _ _ _ _ => rfl,
    fun a n m' hm hle hread => ?_, fun a n m' hm hle hread => ?_⟩
  · rwa [hquiet]
  · obtain rfl : m' = m := congrArg View.memory hm
    have hin : a + n ≤ m'.size := hle
    simp only [Device.veiled]
    rw [if_neg fun hany => hdenied.1 hany hread, dif_pos hin]
    exact ⟨_, rfl, rfl⟩
  · simp only [Device.veiled]
    rw [if_pos (hdenied.2 hread)]
    exact ⟨_, rfl, rfl⟩

end Reflash
