import Reflash.Proofs.Expectation
import Reflash.Proofs.Emulator.Contents
import Reflash.Proofs.Emulator.Immunity

/-!
# What a verification of an emulated chip comes to

An emulated chip can be read everywhere and denies access to some pieces of a range. If
denials are ignored, the pieces that are granted are compared. Otherwise the first denied
piece ends the verification, in paranoid mode unless a piece before it differs, and else even
if one does.

* `checkEach_finds`, `checkRead_finds`: the two ways of going through the pieces.
* `verifyRange_finds`: the search for a mismatch, and the result that it gives.
* `verdict_finding`: what this result says about the pieces, for each policy.
* `verifyRange_exact`: both together.
-/

namespace Reflash.Emulator

variable {e : Emulator} {s : Session Emulator} {policy : Policy} {x : Expectation} {a n : ℕ}
  {t : Span} {ps ts : List Span}

/-! ## Pieces that are granted -/

/-- Access to the span is granted. -/
def grants (config : EmulatorConfig) (t : Span) : Bool := (access config t.start t.len).isOk

/-- A denial that the policy does not ignore ends the verification at this span. -/
def stops (e : Emulator) (policy : Policy) (t : Span) : Bool :=
  !grants e.config t && policy.accessDenied == .abort

theorem access_eq (config : EmulatorConfig) (t : Span) : access config t.start t.len =
    if grants config t then .ok () else .error (.accessDenied t.start) := by
  unfold grants
  cases h : access config t.start t.len with
  | ok _ => rfl
  | error err => exact congrArg Except.error (access_error h)

/-- **Whether access is granted**, or denied and ignored, or denied and an error. -/
theorem accessible_ends (h : e.Untouched s.device) (policy : Policy) (t : Span) :
    Ends (accessible device policy t.start t.len) s fun r s' => e.Untouched s'.device ∧
      r = if e.stops policy t then .error (.accessDenied t.start)
        else .ok (grants e.config t) := by
  have haccess : e.view.access t.start t.len = _ := access_eq e.config t
  have hdenied : policy.ignores (.accessDenied t.start) = true ↔ policy.accessDenied = .ignore :=
    Policy.ignores_denied rfl
  unfold accessible stops
  refine (absorb_check (reveals_view e) policy t.start t.len h).andThen ?_ ?_
  · rintro (err | _) s₁ ⟨h₁, hr⟩
    · rw [haccess] at hr
      cases hg : grants e.config t <;> simp only [hg] at hr
      · obtain ⟨⟨⟩, hign⟩ := hr
        refine Ends.noteThen (ends_pure ⟨h₁, ?_⟩)
        simp [hdenied.1 hign]
      · simp at hr
    · rw [haccess] at hr
      cases hg : grants e.config t <;> simp only [hg] at hr
      · simp at hr
      · exact ends_pure ⟨h₁, by simp⟩
  · rintro err s₁ ⟨h₁, hr, hign⟩
    rw [haccess] at hr
    cases hg : grants e.config t <;> simp only [hg] at hr
    · cases hr
      refine ⟨h₁, ?_⟩
      cases haction : policy.accessDenied with
      | abort => rfl
      | ignore => exact absurd (hdenied.2 haction) hign
    · simp at hr

/-- What follows the question for access: nothing if it is denied and an error. -/
theorem accessible_then {α : Type} {f : Bool → Task Emulator FlashError α}
    {Q : Except FlashError α → Session Emulator → Prop} (h : e.Untouched s.device)
    (policy : Policy) (t : Span)
    (hstop : e.stops policy t = true → ∀ s', e.Untouched s'.device →
      Q (.error (.accessDenied t.start)) s')
    (hgo : e.stops policy t = false → ∀ s', e.Untouched s'.device →
      Ends (f (grants e.config t)) s' Q) :
    Ends (accessible device policy t.start t.len >>= f) s Q := by
  refine (accessible_ends h policy t).andThen ?_ ?_
  · intro granted s₁ hr
    obtain ⟨h₁, hr⟩ := hr
    split at hr
    · cases hr
    · rename_i hgoes
      cases hr
      exact hgo (Bool.eq_false_iff.2 hgoes) s₁ h₁
  · intro err s₁ hr
    obtain ⟨h₁, hr⟩ := hr
    split at hr
    · rename_i hstops
      cases hr
      exact hstop hstops s₁ h₁
    · cases hr

/-- A range inside the memory is read as it is, and what follows gets these bytes. -/
theorem absorb_read_then {α : Type}
    {f : Except FlashError (Vector UInt8 n) → Task Emulator FlashError α}
    {Q : Except FlashError α → Session Emulator → Prop} (hin : a + n ≤ e.memory.size)
    (h : e.Untouched s.device) (policy : Policy)
    (hgo : ∀ bytes s', bytes.toArray = Image.slice e.memory ⟨a, n⟩ → e.Untouched s'.device →
      Ends (f (.ok bytes)) s' Q) :
    Ends (policy.absorb (Device.ask (device.read a n)) >>= f) s Q := by
  refine (absorb_read (reveals_view e) hin h).andThen ?_ ?_
  · rintro (err | bytes) s' ⟨h', hr⟩
    · exact absurd (readable_view e _) hr.1
    · exact hgo bytes s' hr.2 h'
  · rintro err s' ⟨-, hr⟩
    exact absurd (readable_view e _) hr.1

/-! ## The pieces of a range -/

/-- A verification that reads piece after piece comes to a decision at this one. -/
def decides (e : Emulator) (policy : Policy) (x : Expectation) (t : Span) : Bool :=
  e.stops policy t || (grants e.config t && x.differs t)

/-- **Piece after piece, each read on its own**: the first one that decides. -/
theorem checkEach_finds (hx : x.memory = e.memory) (hin : x.start + x.want.size ≤ x.memory.size)
    (hps : ∀ p ∈ ps, p.start + p.len ≤ x.want.size) (h : e.Untouched s.device) :
    Ends (checkEach device policy x.want x.start ps) s fun r s' => e.Untouched s'.device ∧
      r = match (ps.map (Span.shift x.start)).find? (e.decides policy x) with
        | none => .ok none
        | some t => if e.stops policy t then .error (.accessDenied t.start)
          else .ok (x.report? (x.differing [t])) := by
  induction ps generalizing s with
  | nil => exact ends_pure ⟨h, rfl⟩
  | cons p ps ih =>
    obtain ⟨hp, hps⟩ := List.forall_mem_cons.1 hps
    rw [List.map_cons, List.find?_cons]
    unfold checkEach
    refine accessible_then h policy (p.shift x.start) ?_ ?_
    · intro hstops s₁ h₁
      have hends : e.decides policy x (p.shift x.start) = true := by simp [decides, hstops]
      simp [hends, hstops, h₁]
    · intro hstops s₁ h₁
      cases hg : grants e.config (p.shift x.start) with
      | false =>
        have hpass : e.decides policy x (p.shift x.start) = false := by
          simp [decides, hstops, hg]
        rw [hpass]
        exact ih hps h₁
      | true =>
        have hle : x.start + p.start + p.len ≤ e.memory.size := by rw [← hx]; omega
        refine absorb_read_then hle h₁ policy ?_
        intro bytes s₂ hbytes h₂
        have hfind : Mismatch.find? (Image.slice x.want p) bytes.toArray (x.start + p.start) =
            x.report? (x.differing [p.shift x.start]) := by
          rw [hbytes, ← hx]
          exact Expectation.find?_slices hp hin
        dsimp only
        rw [hfind]
        cases hd : x.differs (p.shift x.start) with
        | false =>
          have hpass : e.decides policy x (p.shift x.start) = false := by
            simp [decides, hstops, hd]
          rw [hpass, Expectation.differs_eq_false.1 hd, Expectation.report?_nil]
          exact ih hps h₂
        | true =>
          have hends : e.decides policy x (p.shift x.start) = true := by simp [decides, hg, hd]
          rw [hends]
          cases hreport : x.report? (x.differing [p.shift x.start]) with
          | none =>
            rw [Expectation.report?_eq_none_iff, ← Expectation.differs_eq_false, hd] at hreport
            cases hreport
          | some m => exact ends_pure ⟨h₂, by simp [hstops, hreport]⟩

/-- **Piece after piece, from what was read in one go**: the first one that stops, or all that are
granted. -/
theorem checkRead_finds (hin : x.start + x.want.size ≤ x.memory.size)
    (hps : ∀ p ∈ ps, p.start + p.len ≤ x.want.size) (as : List ℕ) (h : e.Untouched s.device) :
    Ends (checkRead device policy x.want (Image.slice x.memory ⟨x.start, x.want.size⟩) x.start ps
        (x.report? as)) s fun r s' => e.Untouched s'.device ∧
      r = match (ps.map (Span.shift x.start)).find? (e.stops policy) with
        | none => .ok (x.report? (as ++
          x.differing ((ps.map (Span.shift x.start)).filter (grants e.config))))
        | some t => .error (.accessDenied t.start) := by
  induction ps generalizing s as with
  | nil => exact ends_pure ⟨h, by simp [Expectation.differing]⟩
  | cons p ps ih =>
    obtain ⟨hp, hps⟩ := List.forall_mem_cons.1 hps
    rw [List.map_cons, List.find?_cons, List.filter_cons]
    unfold checkRead
    refine accessible_then h policy (p.shift x.start) ?_ ?_
    · intro hstops s₁ h₁
      simp [hstops, h₁]
    · intro hstops s₁ h₁
      rw [hstops]
      cases hg : grants e.config (p.shift x.start) with
      | false => exact ih hps _ h₁
      | true =>
        have hfind : Mismatch.find? (Image.slice x.want p)
            (Image.slice x.memory ⟨x.start + p.start, p.len⟩) (x.start + p.start) =
              x.report? (x.differing [p.shift x.start]) := Expectation.find?_slices hp hin
        rw [if_pos rfl, if_pos rfl, Expectation.differing_cons, ← List.append_assoc,
          Image.slice_slice hp, hfind]
        cases hreport : x.report? (x.differing [p.shift x.start]) with
        | none =>
          rw [Expectation.report?_eq_none_iff] at hreport
          rw [hreport, List.append_nil]
          exact ih hps _ h₁
        | some m =>
          dsimp only
          rw [Expectation.combine_report? hreport]
          exact ih hps _ h₁

/-! ## The whole range -/

/-- The pieces of the range, where they lie in the memory. -/
def chunks (chip : Chip) (x : Expectation) : List Span :=
  Span.pieces ⟨x.start, x.want.size⟩ (max chip.pageSize 1)

/-- The mismatch in these chunks, or the denial that ends the search for it. -/
def finding (e : Emulator) (policy : Policy) (x : Expectation) (ts : List Span) :
    Except FlashError (Option Mismatch) :=
  if policy.paranoid then
    match ts.find? (e.decides policy x) with
    | none => .ok none
    | some t => if e.stops policy t then .error (.accessDenied t.start)
      else .ok (x.report? (x.differing [t]))
  else
    match ts.find? (e.stops policy) with
    | none => .ok (x.report? (x.differing (ts.filter (grants e.config))))
    | some t => .error (.accessDenied t.start)

/-- **The search for a mismatch**, in paranoid mode and otherwise. -/
theorem findMismatch_finds (chip : Chip) (policy : Policy) (hx : x.memory = e.memory)
    (hin : x.start + x.want.size ≤ x.memory.size) (h : e.Untouched s.device) :
    Ends (findMismatch device chip x.want x.start policy) s fun r s' => e.Untouched s'.device ∧
      r = e.finding policy x (chunks chip x) := by
  have hps : ∀ p ∈ Span.pieces ⟨0, x.want.size⟩ (max chip.pageSize 1),
      p.start + p.len ≤ x.want.size := by
    intro p hp
    have hle := (Span.pieces_inside hp).2
    dsimp only at hle
    omega
  have hchunks : chunks chip x =
      (Span.pieces ⟨0, x.want.size⟩ (max chip.pageSize 1)).map (Span.shift x.start) :=
    Span.pieces_shift
  unfold findMismatch finding
  rw [hchunks]
  split
  · exact checkEach_finds hx hin hps h
  · refine absorb_read_then (hx ▸ hin) h policy ?_
    intro bytes s₁ hbytes h₁
    rw [← hx] at hbytes
    dsimp only
    rw [hbytes]
    exact checkRead_finds hin hps [] h₁

theorem verifyRange_finds (chip : Chip) (policy : Policy) (hx : x.memory = e.memory)
    (hin : x.start + x.want.size ≤ x.memory.size) (h : e.Untouched s.device) :
    Ends (verifyRange device chip x.want x.start policy) s fun r s' => e.Untouched s'.device ∧
      r = (e.finding policy x (chunks chip x)).bind Mismatch.verdict := by
  unfold verifyRange
  split
  · rename_i hempty
    have hnone : chunks chip x = [] := Span.pieces_of_len_eq_zero (by simpa using hempty) _
    refine ends_pure ⟨h, ?_⟩
    rw [hnone, finding]
    split <;> rfl
  · refine (findMismatch_finds chip policy hx hin h).andThen ?_ ?_
    · rintro (_ | m) s₁ ⟨h₁, hr⟩
      · exact ends_pure ⟨h₁, by rw [← hr]; rfl⟩
      · exact Ends.noteThen (ends_throw ⟨h₁, by rw [← hr]; rfl⟩)
    · rintro err s₁ ⟨h₁, hr⟩
      exact ⟨h₁, by rw [← hr]; rfl⟩

/-! ## The verdict -/

/-- What a verification of these chunks comes to, for each policy. -/
structure Verdict (e : Emulator) (policy : Policy) (x : Expectation) (ts : List Span)
    (r : Except FlashError Unit) : Prop where
  /-- The granted chunks decide. Paranoia counts only in the first of them that differs. -/
  ignoring : policy.accessDenied = .ignore → x.Settles (ts.filter (grants e.config))
    (if policy.paranoid then ((ts.filter (grants e.config)).find? x.differs).toList
      else ts.filter (grants e.config)) r
  /-- The first denied chunk decides, and without one all chunks do. -/
  aborting : policy.accessDenied = .abort → policy.paranoid = false →
    match ts.find? fun t => !grants e.config t with
    | some t => r = .error (.accessDenied t.start)
    | none => x.Settles ts ts r
  /-- The first chunk decides that is denied or differs. -/
  abortingEach : policy.accessDenied = .abort → policy.paranoid = true →
    match ts.find? fun t => !grants e.config t || x.differs t with
    | some t => if grants e.config t then ∃ m, r = .error (.verifyFailed m) ∧ x.Reports [t] [t] m
      else r = .error (.accessDenied t.start)
    | none => r = .ok ()

theorem stops_ignore (h : policy.accessDenied = .ignore) (t : Span) :
    e.stops policy t = false := by
  simp [stops, h]

theorem stops_abort (h : policy.accessDenied = .abort) (t : Span) :
    e.stops policy t = !grants e.config t := by
  simp [stops, h]

theorem decides_ignore (h : policy.accessDenied = .ignore) (t : Span) :
    e.decides policy x t = (grants e.config t && x.differs t) := by
  simp [decides, stops_ignore h]

theorem decides_abort (h : policy.accessDenied = .abort) (t : Span) :
    e.decides policy x t = (!grants e.config t || x.differs t) := by
  rw [decides, stops_abort h]
  cases grants e.config t <;> rfl

/-- **If denials are ignored**, the granted chunks decide. -/
theorem finding_ignore (h : policy.accessDenied = .ignore) :
    e.finding policy x ts = .ok (x.report? (x.differing
      (if policy.paranoid then ((ts.filter (grants e.config)).find? x.differs).toList
        else ts.filter (grants e.config)))) := by
  have hnone : ts.find? (e.stops policy) = none := by simp [stops_ignore h]
  have hfilter : ts.find? (e.decides policy x) =
      (ts.filter (grants e.config)).find? x.differs := by
    rw [List.find?_filter]
    exact List.find?_congr fun t _ => by simp [decides_ignore h]
  unfold finding
  split
  · rw [hfilter]
    cases (ts.filter (grants e.config)).find? x.differs with
    | none => rfl
    | some t =>
      dsimp only
      rw [stops_ignore h, if_neg Bool.false_ne_true]
      rfl
  · rw [hnone]

/-- **The verdict on the chunks of a range** is what the search finds. -/
theorem verdict_finding (hascend : (ts.flatMap Span.addresses).Pairwise (· < ·)) :
    e.Verdict policy x ts ((e.finding policy x ts).bind Mismatch.verdict) := by
  refine ⟨fun hign => ?_, fun hab hpar => ?_, fun hab hpar => ?_⟩
  · rw [finding_ignore hign]
    refine Expectation.settles_report? (hascend.sublist (List.filter_sublist.flatMap _)) ?_
    split
    · exact Expectation.head?_differing_find?
    · rfl
  · unfold finding
    rw [if_neg (by simp [hpar]), List.find?_congr fun t _ => stops_abort hab t]
    cases hfind : ts.find? fun t => !grants e.config t with
    | some t => rfl
    | none =>
      have hall : ts.filter (grants e.config) = ts := by
        rw [List.filter_eq_self]
        simpa using hfind
      dsimp only
      rw [hall]
      exact Expectation.settles_report? hascend rfl
  · unfold finding
    rw [if_pos hpar, List.find?_congr fun t _ => decides_abort hab t]
    cases hfind : ts.find? fun t => !grants e.config t || x.differs t with
    | none => rfl
    | some t =>
      have hdecides := List.find?_some hfind
      dsimp only at hdecides ⊢
      rw [stops_abort hab]
      cases hg : grants e.config t with
      | false => rfl
      | true =>
        rw [if_pos rfl]
        have hdiffers : x.differs t = true := by simpa [hg] using hdecides
        have hne : x.differing [t] ≠ [] := by
          intro hnil
          rw [Expectation.differs_eq_false.2 hnil] at hdiffers
          cases hdiffers
        -- the report on this chunk alone, which is not that it is as expected
        have hsettles : x.Settles [t] [t] (Mismatch.verdict (x.report? (x.differing [t]))) := by
          refine Expectation.settles_report? ?_ rfl
          rw [List.flatMap_singleton]
          exact List.pairwise_lt_range'
        refine hsettles.mismatch fun hok => hne ?_
        exact Expectation.differing_eq_nil_iff.2 (hsettles.ok_iff.1 hok)

/-- The addresses of the chunks ascend. -/
theorem chunks_ascend (chip : Chip) (x : Expectation) :
    ((chunks chip x).flatMap Span.addresses).Pairwise (· < ·) := by
  unfold chunks
  rw [(Span.tiles_pieces (by omega)).addresses]
  exact List.pairwise_lt_range'

/-- **The result of verifying a range** of an emulated chip, for every policy: what is denied, what
differs and how it is reported. The memory stays as it is. -/
theorem verifyRange_exact (s : Session Emulator) (chip : Chip) (policy : Policy) (want : Image)
    (start : ℕ) (hin : start + want.size ≤ s.device.memory.size) :
    Ends (verifyRange device chip want start policy) s fun r s' =>
      s'.device.memory = s.device.memory ∧
        s.device.Verdict policy ⟨s.device.memory, want, start⟩
          (Span.pieces ⟨start, want.size⟩ (max chip.pageSize 1)) r := by
  let x : Expectation := ⟨s.device.memory, want, start⟩
  refine (verifyRange_finds (x := x) chip policy rfl hin (Untouched.refl s.device)).mono ?_
  rintro r s' ⟨huntouched, rfl⟩
  exact ⟨huntouched.memory, verdict_finding (chunks_ascend chip x)⟩

/-- Of three chunks the first two differ in one byte each, and the third one is denied. The denial
decides, unless each chunk is compared before the next one or denials are ignored. -/
theorem verifyRange_exact_walled :
    (verifyRange device { Chip.small with pageSize := 2 } #[9, 1, 2, 9, 3] 3
      { accessDenied := .abort } ⟨walled, #[], #[]⟩).1 = .error (.accessDenied 7) ∧
    (∃ m, (verifyRange device { Chip.small with pageSize := 2 } #[9, 1, 2, 9, 3] 3
      { accessDenied := .abort, paranoid := true } ⟨walled, #[], #[]⟩).1 =
        .error (.verifyFailed m) ∧ m.address = 4 ∧ m.failCount = 1) ∧
    ∃ m, (verifyRange device { Chip.small with pageSize := 2 } #[9, 1, 2, 9, 3] 3 {}
      ⟨walled, #[], #[]⟩).1 = .error (.verifyFailed m) ∧ m.address = 4 ∧ m.failCount = 2 := by
  have hexact := fun policy => (verifyRange_exact ⟨walled, #[], #[]⟩
    { Chip.small with pageSize := 2 } policy #[9, 1, 2, 9, 3] 3 (by decide)).2
  -- four is the first address that differs in the granted chunks, and in the first one of them
  have haddress : ∀ {ts counted : List Span} {m : Mismatch}, ⟨3, 2⟩ ∈ ts →
      (∀ t ∈ ts, 3 ≤ t.start) →
      Expectation.Reports ⟨walled.memory, #[9, 1, 2, 9, 3], 3⟩ ts counted m → m.address = 4 := by
    intro ts counted m hfirst hfrom h
    have hle : m.address ≤ 4 := h.lowest _ hfirst 4 (by decide) (by decide)
    obtain ⟨t, ht, hin⟩ := h.inside
    have hge : 3 ≤ m.address := (hfrom t ht).trans hin.1
    have hne : m.address ≠ 3 := fun h3 => h.differs (by rw [h3]; rfl)
    omega
  refine ⟨(hexact { accessDenied := .abort }).aborting rfl rfl, ?_, ?_⟩
  · obtain ⟨m, hr, hm⟩ := (hexact { accessDenied := .abort, paranoid := true }).abortingEach rfl rfl
    exact ⟨m, hr, haddress (by decide) (by decide) hm, hm.failCount.trans (by decide)⟩
  · have hsettles := (hexact {}).ignoring rfl
    obtain ⟨m, hr, hm⟩ := hsettles.mismatch fun hok => by
      have := hsettles.ok_iff.1 hok ⟨3, 2⟩ (by decide) 4 (by decide)
      revert this
      decide
    exact ⟨m, hr, haddress (by decide) (by decide) hm, hm.failCount.trans (by decide)⟩

end Reflash.Emulator
