import Reflash.Proofs.Emulator.Assessment
import Reflash.Proofs.Emulator.Blocks

/-!
# Contents that are trusted

An execution that starts from a reference image gives the commands that the reference
needs, whatever the chip holds. Without stuck bits, a block that underwent any of them
no longer holds what the reference says: an erase leaves a byte erased that was not,
and a write never stores what it should replace. So if the chip reads like the
reference after a failure, nothing was carried out.

* `processBlock_underwent`: the commands for a block, on a chip that holds something else.
* `exists_byte_left`: some of these commands leave the block different from the reference.
* `executePlan_unlike`: the memory stays as it is, or becomes different from the reference.
* `reprogram_trusted`: what an error means that is not dangerous.
-/

namespace Reflash

namespace Emulator

variable {chip : Chip} {policy : Policy} {b : Block} {cur want part reference new m : Image} {w : Span}
  {n offset : ℕ} {pre cs : List Command} {c : Command} {e e' : Emulator} {s : Session Emulator}
  {ex : Execution Emulator} {options : WriteOptions}

/-! ## Commands for other contents -/

/-- Reading makes no difference to what took effect. -/
theorem readsKeep_underwent (e : Emulator) (cs : List Command) :
    device.ReadsKeep (e.Underwent cs) :=
  readsKeep_of_read fun a n e' h => h.untouched (read_untouched a n e')

/-- The write of a window takes effect or not, and a check of it changes nothing. -/
theorem writeWindow_underwent {erased : Bool} (hstuck : e.config.stuckBits = [])
    (hpre : e.Underwent pre ex.session.device) :
    Ends (writeWindow device chip policy b want erased w) ex fun r ex' => match r with
      | .ok _ => e.Underwent (pre ++ [b.writing want w]) ex'.session.device ∧
          ex'.current = Image.overlay ex.current w.start (Image.slice want w)
      | .error _ => e.Underwent pre ex'.session.device ∨
          e.Underwent (pre ++ [b.writing want w]) ex'.session.device := by
  refine writeWindow_ends
    (R := fun s => e.Underwent (pre ++ [b.writing want w]) s.device) ?_ ?_ ?_
  · refine (ask_perform policy (b.writing want w) hstuck hpre).mono fun r s h => ?_
    cases r with
    | ok _ => exact h
    | error err => exact h.initial hstuck
  · intro _ s h
    refine (verifyRange_keeps (readsKeep_underwent e _) s h).mono fun r s' h' => ?_
    cases r with
    | ok _ => exact h'
    | error err => exact .inr h'
  · exact fun s h => ⟨h, rfl⟩

/-- **The writes of a block** are those of the windows that differ in the copy. Some of them take
effect. -/
theorem writeWindows_underwent {erased : Bool} (hstuck : e.config.stuckBits = [])
    (hpre : e.Underwent pre ex.session.device) :
    Ends (writeWindows device chip policy b want erased n offset) ex fun _ ex' =>
      ∃ cs, cs <+: pre ++
          (windowsFrom ex.current want chip.granularity n offset).map (b.writing want) ∧
        e.Underwent cs ex'.session.device := by
  -- by induction on how many windows there can be, with those that are written already in `pre`
  induction n generalizing ex offset pre with
  | zero => exact ends_pure ⟨pre, List.prefix_append _ _, hpre⟩
  | succ n ih =>
    unfold writeWindows windowsFrom
    refine Ends.getThen ?_
    cases hw : nextWindow? ex.current want chip.granularity offset with
    | none => exact ends_pure ⟨pre, List.prefix_append _ _, hpre⟩
    | some w =>
      obtain ⟨-, -, hstop⟩ := nextWindow?_bounds hw
      have hdata : (Image.slice want w).size = w.len :=
        Image.size_slice (hstop.trans (Nat.min_le_right _ _))
      have hrest := windowsFrom_overlay (g := chip.granularity) hstop hdata n
      dsimp only
      rw [List.map_cons, List.append_cons]
      refine (writeWindow_underwent hstuck hpre).andThen ?_ ?_
      · rintro _ ex₁ ⟨h₁, hcurrent⟩
        have hih : Ends (writeWindows device chip policy b want erased n w.stop) ex₁ _ := ih h₁
        rw [hcurrent, hrest] at hih
        refine hih.discardThen ?_ ?_
        · exact fun _ ex₂ h₂ => ends_pure h₂
        · exact fun _ ex₂ h₂ => h₂
      · rintro err ex₁ (h₁ | h₁)
        · exact ⟨pre, (List.prefix_append _ _).trans (List.prefix_append _ _), h₁⟩
        · exact ⟨_, List.prefix_append _ _, h₁⟩

/-- **One block**: some of the commands that the copy needs take effect, whatever the chip holds. -/
theorem processBlock_underwent (hstuck : e.config.stuckBits = []) (hchip : e.config.chip = chip)
    (hb : b.start + b.size ≤ e.memory.size) (hdev : ex.session.device = e)
    (hsize : ex.current.size = b.size) :
    Ends (processBlock device chip policy b want) ex fun _ ex' =>
      ∃ cs, cs <+: b.commands chip ex.current want ∧ e.Underwent cs ex'.session.device := by
  have hstart : e.Underwent [] ex.session.device := hdev ▸ Underwent.refl e
  unfold Block.commands
  refine processBlock_ends (P := fun erased ex' =>
    needErase ex.current want chip.granularity chip.erasedValue = erased ∧
    if erased then e.Underwent [b.command] ex'.session.device ∧
      ex'.current = Image.blank ex.current.size chip.erasedValue
    else ex' = ex) (fun hneed => ?_) (fun hkeep => ⟨hkeep, rfl⟩) ?_
  · rw [if_pos hneed]
    refine (eraseBlock_runs hstuck hchip hb hdev hsize).mono fun r ex' h' => ?_
    cases r with
    | ok _ => exact ⟨hneed, h'.1, hsize.symm ▸ h'.2⟩
    | error err =>
      rcases h'.2.initial hstuck with h' | h'
      · exact ⟨[], List.nil_prefix, h'⟩
      · exact ⟨[b.command], List.prefix_append _ _, h'⟩
  · rintro (_ | _) ex' ⟨hneed, h'⟩
    · rw [if_neg (Bool.eq_false_iff.1 hneed)]
      obtain rfl : ex' = ex := h'
      have hwrites : Ends (writeWindows device chip policy b want false want.size 0) ex' _ :=
        writeWindows_underwent hstuck hstart
      exact hwrites
    · rw [if_pos hneed]
      obtain ⟨hunder, hblank⟩ := h'
      have hwrites : Ends (writeWindows device chip policy b want true want.size 0) ex' _ :=
        writeWindows_underwent hstuck hunder
      rw [hblank] at hwrites
      exact hwrites

/-! ## What the commands leave -/

/-- **A write never stores what it should replace**, where an erase is not needed for it. -/
theorem programmedByte_ne (hbits : chip.BitsErased) {old b : UInt8} (hne : old ≠ b)
    (h : chip.granularity = .byteImplicitErase ∨ (chip.granularity = .bit ∧ old &&& b = b) ∨
      old = chip.erasedValue) (cell : UInt8) : programmedByte chip cell b ≠ old := by
  unfold programmedByte
  split
  · exact hne.symm
  · rename_i hg
    rcases h with h | ⟨hbit, hand⟩ | rfl
    · exact absurd h hg
    · -- a bit that should be cleared is not set again
      rw [hbits hbit, programByte_set]
      rintro rfl
      rw [UInt8.and_assoc, UInt8.and_self] at hand
      exact hne hand
    · exact fun heq => hne (programByte_eq_erased.1 heq).2.symm

/-- **A block that is erased and written partway** is not what it was, if it had to be erased. -/
theorem exists_byte_of_partway (hbits : chip.BitsErased) (hsize : cur.size = want.size)
    (hneed : needErase cur want chip.granularity chip.erasedValue = true)
    (h : Partway chip (Image.blank want.size chip.erasedValue) want 0 part) :
    ∃ i < want.size, part.byte i ≠ cur.byte i := by
  obtain ⟨k, -, hborder, hpart⟩ := h
  have hblank : ∀ i < want.size, part.byte i = if i < k then want.byte i else chip.erasedValue := by
    intro i hi
    rw [hpart i hi, Image.byte_blank hi]
  have hmin : min cur.size want.size = want.size := by omega
  have hneed := of_needErase hneed
  rw [hmin] at hneed
  rcases hneed with ⟨hbit, i, hi, hlost⟩ | ⟨-, i, hi, j, hj, hchunk, hdiffers, hleft⟩
  · -- a bit that has to be set again is not set before
    refine ⟨i, hi, fun heq => hlost ?_⟩
    rw [← heq, hblank i hi]
    split
    · exact UInt8.and_self
    · rw [hbits hbit, show (0xFF : UInt8) = -1 from rfl, UInt8.neg_one_and]
  · -- either the chunk was written, with a byte in it that changes, or it was left erased
    have hside := hborder.lt_iff chip.granularity.stride_pos hi hj hchunk
    by_cases hik : i < k
    · refine ⟨i, hi, ?_⟩
      rw [hblank i hi, if_pos hik]
      exact hdiffers.symm
    · refine ⟨j, hj, ?_⟩
      rw [hblank j hj, if_neg fun hjk => hik (hside.2 hjk)]
      exact hleft.symm

/-- What the write of a window stores at one of its addresses. -/
theorem byte_writing {i : ℕ} (hw : w.stop ≤ want.size) (hb : b.start + want.size ≤ m.size)
    (hi : i ∈ w) : ((b.writing want w).apply chip m).byte (b.start + i) =
      programmedByte chip (m.byte (b.start + i)) (want.byte i) := by
  obtain ⟨h1, h2⟩ := hi
  have hlen : (Image.slice want w).size = w.len := Image.size_slice hw
  have hat : b.start + i - (b.start + w.start) = i - w.start := Nat.add_sub_add_left _ _ _
  unfold Span.stop at hw
  rw [Block.writing, Command.byte_write (by omega) (by omega) (by omega), hat,
    Image.byte_slice (by omega), Nat.add_sub_cancel' h1]

/-- Where no erase is needed, the first write leaves a byte that is not what it should replace, and
the others do not reach it. -/
theorem exists_byte_written (hbits : chip.BitsErased) (hb : b.start + want.size ≤ m.size)
    (hsize : cur.size = want.size)
    (hkeep : needErase cur want chip.granularity chip.erasedValue = false)
    (hpre : c :: pre <+: (windowsFrom cur want chip.granularity n 0).map (b.writing want)) :
    ∃ i < want.size, (Command.applyAll chip (c :: pre) m).byte (b.start + i) ≠ cur.byte i := by
  cases n with
  | zero => cases List.prefix_nil.1 hpre
  | succ n =>
    unfold windowsFrom at hpre
    cases hw : nextWindow? cur want chip.granularity 0 with
    | none =>
      rw [hw] at hpre
      cases List.prefix_nil.1 hpre
    | some w =>
      rw [hw] at hpre
      dsimp only at hpre
      rw [List.map_cons, List.cons_prefix_cons] at hpre
      obtain ⟨rfl, hrest⟩ := hpre
      obtain ⟨-, -, hstop⟩ := nextWindow?_bounds hw
      obtain ⟨-, -, hdiffer⟩ := nextWindow?_eq_some Window.border_zero hw
      obtain ⟨i, hi, hne⟩ := nextWindow?_differs hw
      have hin : w.stop ≤ want.size := hstop.trans (Nat.min_le_right _ _)
      have hlt : i < want.size := hi.2.trans_le hin
      have hbehind : (Command.applyAll chip pre ((b.writing want w).apply chip m)).byte
          (b.start + i) = ((b.writing want w).apply chip m).byte (b.start + i) := by
        refine Command.byte_applyAll fun c hc hmem => ?_
        obtain ⟨v, hv, rfl⟩ := List.mem_map.1 (hrest.subset hc)
        obtain ⟨hstart, -, hvstop⟩ := windowsFrom_bounds hv
        have hlt := hi.2
        unfold Span.stop at hstart hvstop
        rw [span_writing (hvstop.trans (Nat.min_le_right _ _)), Span.mem_def] at hmem
        dsimp only at hmem
        omega
      refine ⟨i, hlt, ?_⟩
      show (Command.applyAll chip pre ((b.writing want w).apply chip m)).byte (b.start + i) ≠ _
      rw [hbehind, byte_writing hin hb hi]
      exact programmedByte_ne hbits hne (of_not_needErase hkeep (by omega) (hdiffer i hi)) _

/-- **Some of the commands** leave the block different from the contents that they are meant for,
whatever it held. -/
theorem exists_byte_left (hbits : chip.BitsErased) (hb : b.start + b.size ≤ m.size)
    (hwant : want.size = b.size) (hcur : cur.size = b.size)
    (hpre : c :: pre <+: b.commands chip cur want) :
    ∃ i < b.size, (Command.applyAll chip (c :: pre) m).byte (b.start + i) ≠ cur.byte i := by
  have hsize : cur.size = want.size := hcur.trans hwant.symm
  unfold Block.commands at hpre
  split at hpre
  · rename_i hneed
    obtain ⟨rfl, hrest⟩ := List.cons_prefix_cons.1 hpre
    -- after the erase, the chip holds what the copy of the contents says
    have hslice := @slice_erased chip b m hb
    rw [hcur, ← hwant] at hrest
    rw [← hwant] at hslice
    have hpart := (applyAll_writing (by rwa [Command.size_apply]) hwant hslice
      (pending_blank chip want)).1 pre hrest
    obtain ⟨i, hi, hne⟩ := exists_byte_of_partway hbits hsize hneed hpart
    have hi : i < b.size := hwant ▸ hi
    rw [Image.byte_slice (show i < b.span.len from hi)] at hne
    exact ⟨i, hi, hne⟩
  · rename_i hkeep
    rw [← hwant] at hb ⊢
    exact exists_byte_written hbits hb hsize (Bool.eq_false_iff.2 hkeep) hpre

/-! ## An execution -/

/-- The blocks in `rest` are not processed yet. The copy says of them what the reference does, and the
memory is what it was or differs from the reference somewhere else. -/
structure Astray (e : Emulator) (reference : Image) (rest : List Block) (dev : Emulator)
    (current : Image) : Prop where
  alike : e.Alike dev
  size : current.size = e.memory.size
  copy : ∀ b ∈ rest, Image.Agree b.span current reference
  memory : dev.memory = e.memory ∨
    ∃ a, (∀ b ∈ rest, a ∉ b.span) ∧ dev.memory.byte a ≠ reference.byte a

variable {dev : Emulator} {current : Image} {rest bs : List Block}

/-- At the end, the memory is what it was or not the reference. -/
theorem Astray.unlike (h : e.Astray reference rest dev current) :
    dev.memory = e.memory ∨ dev.memory ≠ reference := by
  rcases h.memory with h | ⟨a, -, hne⟩
  · exact .inl h
  · exact .inr fun heq => hne (congrArg (Image.byte · a) heq)

/-- **One more block**, whatever part of its commands took effect. -/
theorem Astray.next (hbits : chip.BitsErased) (hchip : e.config.chip = chip)
    (hreference : reference.size = e.memory.size) (hnew : new.size = e.memory.size)
    (hb : b.start + b.size ≤ e.memory.size)
    (hdis : ∀ c ∈ rest, ∀ a ∈ b.span, a ∉ c.span) (h : e.Astray reference (b :: rest) dev current)
    (hcs : cs <+: b.commands chip (Image.slice current b.span) (Image.slice new b.span))
    (hunder : dev.Underwent cs e') (hpart : part.size = b.size) :
    e.Astray reference rest e' (Image.overlay current b.start part) := by
  have hcopy : Image.slice current b.span = Image.slice reference b.span :=
    (Image.agree_iff_slice (s := b.span) (h.size.symm ▸ hb) (hreference.symm ▸ hb)).1
      (h.copy b List.mem_cons_self)
  refine ⟨h.alike.trans hunder.alike, Image.size_overlay.trans h.size, fun c hc a ha => ?_, ?_⟩
  · refine Eq.trans ?_ (h.copy c (List.mem_cons_of_mem _ hc) a ha)
    refine Image.byte_overlay_outside ?_
    rw [hpart]
    exact fun hab => hdis c hc a hab ha
  · rw [hunder.memory, h.alike.config, hchip]
    cases cs with
    | nil =>
      refine h.memory.imp_right ?_
      rintro ⟨a, ha, hne⟩
      exact ⟨a, fun c hc => ha c (List.mem_cons_of_mem _ hc), hne⟩
    | cons c pre =>
      rw [hcopy] at hcs
      obtain ⟨i, hi, hne⟩ := exists_byte_left hbits (h.alike.size.symm ▸ hb)
        (Image.size_slice (hnew.symm ▸ hb)) (Image.size_slice (hreference.symm ▸ hb)) hcs
      rw [Image.byte_slice (show i < b.span.len from hi)] at hne
      refine .inr ⟨b.start + i, fun c hc => hdis c hc _ ⟨Nat.le_add_right _ _, ?_⟩, hne⟩
      simp only [Block.span]
      omega

/-- **Blocks without a common address**, processed from a reference. -/
theorem processBlocks_unlike {done : ℕ} (hstuck : e.config.stuckBits = [])
    (hchip : e.config.chip = chip) (hbits : chip.BitsErased)
    (hreference : reference.size = e.memory.size) (hnew : new.size = e.memory.size)
    (hin : ∀ b ∈ bs, b.start + b.size ≤ e.memory.size)
    (hdis : bs.Pairwise fun b c => ∀ a ∈ b.span, a ∉ c.span)
    (h : e.Astray reference bs ex.session.device ex.current) :
    Ends (processBlocks device chip policy new bs done) ex fun _ ex' =>
      ex'.session.device.memory = e.memory ∨ ex'.session.device.memory ≠ reference := by
  refine processBlocks_ends
    (J := fun rest dev current _ => e.Astray reference rest dev current ∧
      (∀ b ∈ rest, b.start + b.size ≤ e.memory.size) ∧
      rest.Pairwise fun b c => ∀ a ∈ b.span, a ∉ c.span)
    (Q := fun _ dev _ _ => dev.memory = e.memory ∨ dev.memory ≠ reference)
    (fun _ _ _ h' => h'.1.unlike) ?_ ⟨h, hin, hdis⟩
  rintro b rest ex₁ ⟨h₁, hin₁, hdis₁⟩
  obtain ⟨hb, hrest⟩ := List.forall_mem_cons.1 hin₁
  obtain ⟨hfirst, hdis₂⟩ := List.pairwise_cons.1 hdis₁
  have hpart : (ex₁.enter b).current.size = b.size := Image.size_slice (h₁.size.symm ▸ hb)
  have hunder : Ends (processBlock device chip policy b (Image.slice new b.span)) (ex₁.enter b) _ :=
    processBlock_underwent (h₁.alike.config ▸ hstuck) (h₁.alike.config ▸ hchip)
      (h₁.alike.size.symm ▸ hb) rfl hpart
  refine (hunder.and processBlock_counts).mono ?_
  rintro r ex₂ ⟨⟨cs, hcs, hunder⟩, hsize₂, -⟩
  have hnext := h₁.next hbits hchip hreference hnew hb (fun c hc => hfirst c hc) hcs hunder
    (hsize₂.trans hpart)
  exact afterBlock_of (fun _ _ _ => ⟨hnext, hrest, hdis₂⟩) fun _ _ _ => hnext.unlike

/-- **An execution from a reference** leaves the memory as it was, or different from the reference,
however it ends. -/
theorem executePlan_unlike {es : List Eraser} (hstuck : s.device.config.stuckBits = [])
    (he : s.device.Emulates chip) (hbits : chip.BitsErased) (hes : Nested es)
    (hreference : reference.size = chip.totalSize) (hnew : new.size = chip.totalSize) :
    Ends (executePlan device chip (Plan.ofErasers chip reference new es) reference policy) s
      fun _ s' => s'.device.memory = s.device.memory ∨ s'.device.memory ≠ reference := by
  have hwell : (Plan.ofErasers chip reference new es).WellFormed chip.totalSize :=
    wellFormed_ofErasers hes hreference hnew
  refine executePlan_ends
    (Q := fun _ _ (dev : Emulator) => dev.memory = s.device.memory ∨ dev.memory ≠ reference)
    (hreference.trans hnew.symm) fun t ht => ?_
  refine processBlocks_unlike hstuck he.follows hbits (hreference.trans he.size.symm)
    (hnew.trans he.size.symm) (fun b hb => ?_) hwell.blocks_disjoint ?_
  · exact (hwell.blocks_inside hb).trans_eq he.size.symm
  · exact ⟨ht ▸ Alike.refl _, hreference.trans he.size.symm, fun _ _ _ _ => rfl,
      .inl (congrArg memory ht)⟩

/-! ## Whole operations -/

/-- Old contents from a reference are that image, unless its size is wrong. -/
theorem oldContents_reference (assumed : UInt8) (h : e.Untouched s.device) :
    Ends (oldContents device chip assumed (.reference reference)) s fun r s' =>
      e.Untouched s'.device ∧
        (r = .ok (reference, .diff) ∨ ∃ cause, r = .error (.plan cause)) := by
  refine Ends.exceptThen (fun _ _ => ends_pure ⟨h, .inl rfl⟩) fun err herr => ⟨h, .inr ?_⟩
  obtain ⟨⟨cause, rfl⟩, -⟩ := checkSize_error herr
  exact ⟨cause, rfl⟩

/-- A small chip that refuses all erases. -/
def barred : Emulator where
  config := { chip := Chip.small, restricted := [0, 1] }
  memory := #[0, 1, 2, 3, 255, 255, 255, 255]

/-- A small chip with a stuck bit in a byte that is not what its reference says. -/
def sticky : Emulator where
  config := { chip := Chip.small, stuckBits := [(0, 1)] }
  memory := #[0, 255, 255, 255, 255, 255, 255, 255]

/-- A small chip without faults that programs bits away from zero. -/
def bitwise : Emulator where
  config := { chip := { Chip.small with granularity := .bit, erasedValue := 0 } }
  memory := #[2, 0, 0, 0, 0, 0, 0, 0]

/-- **An error that is not dangerous**, after a write or an erase from a reference that need not be
what the chip holds: whatever faults the chip has, its memory is what it was, or it reads like the
reference. If no bits are stuck, and set bits are the erased ones where bits are programmed one by
one, the memory is what it was. -/
theorem reprogram_trusted {s' : Session Emulator} {err : OperationError}
    (he : s.device.Emulates chip) (hold : options.old = .reference reference)
    (hsafe : err.isDangerous = false)
    (h : writeImage device chip new options s = (.error err, s') ∨
      eraseImage device chip options s = (.error err, s')) :
    (s'.device.memory = s.device.memory ∨ s'.device.memory = reference) ∧
      (s.device.config.stuckBits = [] → chip.BitsErased → s'.device.memory = s.device.memory) := by
  have haccounts : s.device.Accounts reference (fun m => s.device.config.stuckBits = [] →
      chip.BitsErased → m = s.device.memory ∨ m ≠ reference) s'.device err := by
    refine reprogram_accounts he.size (fun assumed => ?_) ?_ h
    · rw [hold]
      exact oldContents_reference assumed (Untouched.refl _)
    · intro new es t hes hreference hnew ht
      by_cases hstuck : s.device.config.stuckBits = []
      · by_cases hbits : chip.BitsErased
        · have hemulates : t.device.Emulates chip :=
            ⟨ht.config ▸ he.follows, ht.alike.size.trans he.size⟩
          refine (executePlan_unlike (ht.config ▸ hstuck) hemulates hbits hes hreference
            hnew).mono fun _ t' h' _ _ => ?_
          rwa [ht.memory] at h'
        · exact fun _ h => absurd h hbits
      · exact fun h => absurd h hstuck
  cases err with
  | read cause => exact ⟨.inl haccounts.memory, fun _ _ => haccounts.memory⟩
  | plan cause => exact ⟨.inl haccounts.memory, fun _ _ => haccounts.memory⟩
  | execute cause assessment =>
    obtain ⟨hunlike, rfl⟩ := haccounts
    -- the assessment compared with the reference
    have hequal : s'.device.memory = reference := by
      refine compared_eq_nothingChanged.1 ?_
      unfold compared at hsafe ⊢
      split at hsafe
      · rw [if_pos ‹_›]
      · cases hsafe
    exact ⟨.inr hequal, fun hstuck hbits =>
      (hunlike hstuck hbits).resolve_right (not_not_intro hequal)⟩
  | verify cause => cases hsafe

/-- The erase of the only block with data is refused. -/
theorem reprogram_trusted_barred :
    (eraseImage device Chip.small { old := .reference barred.memory } ⟨barred, #[], #[]⟩).1 =
        .error (.execute ⟨.erase, 0, 4, .eraserNotSupported 0⟩ .nothingChanged) ∧
      (eraseImage device Chip.small { old := .reference barred.memory }
        ⟨barred, #[], #[]⟩).2.device.memory = barred.memory := by
  have herror : (eraseImage device Chip.small { old := .reference barred.memory }
      ⟨barred, #[], #[]⟩).1 =
        .error (.execute ⟨.erase, 0, 4, .eraserNotSupported 0⟩ .nothingChanged) := by
    decide +kernel
  generalize herased : eraseImage device Chip.small { old := .reference barred.memory }
    ⟨barred, #[], #[]⟩ = x at herror ⊢
  obtain ⟨_, s'⟩ := x
  cases herror
  have htrusted := @reprogram_trusted Chip.small barred.memory smallImage ⟨barred, #[], #[]⟩
    { old := .reference barred.memory } s' _ ⟨rfl, rfl⟩ rfl rfl (.inr herased)
  exact ⟨rfl, htrusted.2 rfl fun h => by cases h⟩

/-- **A chip that comes to read like its reference.** The erase of the sticky chip takes effect but
fails its check, and what it leaves is what the reference says. A write on the other chip sets a
bit next to one that was set, which makes the byte that of the reference. Neither error is
dangerous, although the memory changed. -/
theorem reprogram_restored :
    (∃ err s', writeImage device Chip.small #[1, 255, 255, 255, 255, 255, 255, 255]
        { old := .reference #[254, 255, 255, 255, 255, 255, 255, 255],
          policy := { paranoid := true } } ⟨sticky, #[], #[]⟩ = (.error err, s') ∧
      err.isDangerous = false ∧ s'.device.memory ≠ sticky.memory) ∧
    ∃ err s', writeImage device bitwise.config.chip #[1, 0, 0, 0, 0, 0, 0, 0]
        { old := .reference #[3, 0, 0, 0, 0, 0, 0, 0], policy := { paranoid := true } }
        ⟨bitwise, #[], #[]⟩ = (.error err, s') ∧
      err.isDangerous = false ∧ s'.device.memory ≠ bitwise.memory := by
  have hsticky : (fun x : Except OperationError Summary × Session Emulator =>
        (x.1, x.2.device.memory)) (writeImage device Chip.small
          #[1, 255, 255, 255, 255, 255, 255, 255]
          { old := .reference #[254, 255, 255, 255, 255, 255, 255, 255],
            policy := { paranoid := true } } ⟨sticky, #[], #[]⟩) =
      (.error (.execute ⟨.erase, 0, 2, .eraseFailed 0 254⟩ .nothingChanged),
        #[254, 255, 255, 255, 255, 255, 255, 255]) := by decide +kernel
  have hbitwise : (fun x : Except OperationError Summary × Session Emulator =>
        (x.1, x.2.device.memory)) (writeImage device bitwise.config.chip #[1, 0, 0, 0, 0, 0, 0, 0]
          { old := .reference #[3, 0, 0, 0, 0, 0, 0, 0], policy := { paranoid := true } }
          ⟨bitwise, #[], #[]⟩) =
      (.error (.execute ⟨.write, 0, 1, .verifyFailed ⟨0, 1, 3, 1⟩⟩ .nothingChanged),
        #[3, 0, 0, 0, 0, 0, 0, 0]) := by decide +kernel
  have hfails : ∀ {x : Except OperationError Summary × Session Emulator} {cause m m₀},
      (x.1, x.2.device.memory) = (.error (.execute cause .nothingChanged), m) → m ≠ m₀ →
      ∃ err s', x = (.error err, s') ∧ err.isDangerous = false ∧ s'.device.memory ≠ m₀ := by
    rintro ⟨_, s'⟩ cause m m₀ hx hne
    obtain ⟨rfl, rfl⟩ := Prod.mk.inj hx
    exact ⟨_, s', rfl, rfl, hne⟩
  exact ⟨hfails hsticky (by decide), hfails hbitwise (by decide)⟩

end Emulator

end Reflash
