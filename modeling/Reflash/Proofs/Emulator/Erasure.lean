import Reflash.Proofs.Emulator.Protection
import Reflash.Proofs.Emulator.RoundTrip
import Reflash.Proofs.Plan.Erasure
import Reflash.Proofs.Plan.Selection

/-!
# Erasing without a comparison

An erase that compares with nothing takes every byte for the inverse of the erased
one. So every block is erased, in the coarsest blocks that can be selected, and what
the chip holds does not matter.

The copy of the contents is wrong then. But where it comes to hold what is wanted, the
chip does (`Follows`): at first it holds that nowhere, and every command puts the same
into both.

* `processBlock_erases`, `processBlock_erasing`: one block, alone and in its plan.
* `executePlan_erases`: all of a plan.
* `exists_selection`: the same erasers are selected as long as nothing changes.
* `eraseImage_undiffed`: the whole of an erase, with what the chip records.
-/

namespace Reflash

variable {g : Granularity} {n : ℕ} {v : UInt8}

/-- An image in which every byte is the inverse of the erased one has to be erased. -/
theorem needErase_inverse (hn : 0 < n) (hg : g ≠ .byteImplicitErase)
    (hbits : g = .bit → v = 0xFF) :
    needErase (Image.blank n (~~~v)) (Image.blank n v) g v = true := by
  have hsize : min (Image.blank n (~~~v)).size (Image.blank n v).size = n := by
    rw [Image.size_blank, Image.size_blank, Nat.min_self]
  have hold : (Image.blank n (~~~v)).byte 0 = ~~~v := Image.byte_blank hn
  have hnew : (Image.blank n v).byte 0 = v := Image.byte_blank hn
  have hdiffers : Image.differsAt (Image.blank n (~~~v)) (Image.blank n v) 0 = true := by
    rw [Image.differsAt_iff, hold, hnew]
    exact UInt8.not_ne_self
  have hkept : ((Image.blank n (~~~v)).byte 0 != v) = true := by
    rw [hold, bne_iff_ne]
    exact UInt8.not_ne_self
  have hshared : 0 ∈ Image.shared (Image.blank n (~~~v)) (Image.blank n v) :=
    ⟨Nat.le_refl _, by simp only [Image.shared, hsize]; omega⟩
  unfold needErase
  dsimp only
  split
  · refine Span.any_iff.2 ⟨0, hshared, ?_⟩
    rw [hold, hnew, hbits rfl]
    decide
  · exact Span.any_iff.2 ⟨0, hshared, by rw [hdiffers, hkept]; rfl⟩
  · exact absurd rfl hg
  · obtain ⟨p, hp, hin⟩ := (Span.mem_pieces g.stride_pos).2 hshared
    refine List.any_eq_true.2 ⟨p, hp, ?_⟩
    rw [Span.any_iff.2 ⟨0, hin, hdiffers⟩, Span.any_iff.2 ⟨0, hin, hkept⟩]
    rfl

/-- The operation that erases the block. -/
def Block.operation (b : Block) : Operation := .erase b.function b.start b.size

/-- A block that is taken to hold what it should is left as it is. -/
theorem writeWindows_idle {σ : Type} {d : Device σ} {chip : Chip} {policy : Policy} {b : Block}
    {want : Image} {erased : Bool} {ex : Execution σ} (h : ex.current = want) :
    Ends (writeWindows d chip policy b want erased want.size 0) ex fun r ex' =>
      (∃ written, r = .ok written) ∧ ex' = ex := by
  refine (writeWindows_ends (J := fun _ ex' => ex' = ex)
    (Q := fun r ex' => r = .ok () ∧ ex' = ex) (fun _ _ hex _ => ⟨rfl, hex⟩) ?_
    (Nat.zero_add _).ge rfl).mono ?_
  · rintro offset w _ rfl hw
    obtain ⟨i, -, hne⟩ := nextWindow?_differs hw
    rw [h] at hne
    exact absurd rfl hne
  · rintro (err | written) ex' ⟨hr, hex⟩
    · cases hr
    · exact ⟨⟨written, rfl⟩, hex⟩

namespace Emulator

variable {e dev dev' : Emulator} {b : Block} {bs past : List Block} {chip : Chip} {policy : Policy}
  {part cur want : Image} {w : Span} {ex : Execution Emulator} {s : Session Emulator}

/-! ## What is recorded -/

/-- The erases and writes that were performed, oldest first. -/
def changes (e : Emulator) : List Operation :=
  e.operations.toList.filter fun o => o.isErase || o.isWrite

theorem read_changes (a n : ℕ) (e : Emulator) : (read a n e).device.changes = e.changes := by
  unfold read
  split
  · show List.filter _ (Array.push _ _).toList = _
    rw [Array.toList_push, List.filter_append]
    exact List.append_nil _
  · rfl

/-- Reading is no change. -/
theorem readsKeep_changes (os : List Operation) : device.ReadsKeep fun e => e.changes = os :=
  readsKeep_of_read fun a n e h => (read_changes a n e).trans h

/-- From `e` to `e'`, nothing was recorded but reads. -/
structure OnlyRead (e e' : Emulator) : Prop extends e.Untouched e' where
  changes : e'.changes = e.changes

theorem OnlyRead.refl (e : Emulator) : e.OnlyRead e := ⟨Untouched.refl e, rfl⟩

theorem readsKeep_onlyRead (e : Emulator) : device.ReadsKeep e.OnlyRead := by
  refine readsKeep_of_read fun a n e' h => ?_
  have hchanges : (read a n e').device.changes = e.changes := (read_changes a n e').trans h.changes
  exact ⟨h.trans (read_untouched a n e'), hchanges⟩

/-- An erase that succeeds is recorded. -/
theorem ask_erase_changes (f a n : ℕ) : Ends (Device.ask (device.erase f a n)) s fun r s' =>
    r = .ok () → s'.device.changes = s.device.changes ++ [.erase f a n] := by
  refine ends_ask fun hok => ?_
  cases hcheck : s.device.checkErase f a n with
  | error err =>
    have hop : device.erase f a n s.device = .quiet (.error err) s.device := erase_refused hcheck
    rw [hop] at hok
    cases hok
  | ok _ =>
    have hoperations : (device.erase f a n s.device).device.operations =
        s.device.operations.push (.erase f a n) := (erase_carriedOut hcheck).1.operations
    unfold changes
    rw [hoperations, Array.toList_push, List.filter_append]
    rfl

/-- So is the erase of a block. -/
theorem eraseBlock_changes : Ends (eraseBlock device chip policy b) ex fun r ex' =>
    r = .ok () → ex'.session.device.changes = ex.session.device.changes ++ [b.operation] := by
  refine eraseBlock_ends (R := fun s =>
    s.device.changes = ex.session.device.changes ++ [b.operation]) ?_ ?_ fun s h _ => h
  · refine (ask_erase_changes b.function b.start b.size).mono fun r s h => ?_
    cases r with
    | ok _ => exact h rfl
    | error err => exact fun hok => by cases hok
  · intro _ s h
    have hkeeps := checkErased_keeps (readsKeep_changes _) b.span chip.erasedValue s h
    refine hkeeps.mono fun r s' h' => ?_
    cases r with
    | ok _ => exact h'
    | error err => exact fun hok => by cases hok

/-! ## One block -/

/-- Where the copy holds what is wanted, the chip does. -/
def Follows (part cur want : Image) : Prop :=
  ∀ i < want.size, cur.byte i = want.byte i → part.byte i = want.byte i

/-- A window that is written to both. -/
theorem Follows.next (h : Follows part cur want) (hpart : part.size = want.size)
    (hcur : cur.size = want.size) (hw : w.stop ≤ want.size) :
    Follows (Image.overlay part w.start (Image.slice want w))
      (Image.overlay cur w.start (Image.slice want w)) want := by
  intro i hi heq
  rw [Image.byte_overlay (hcur.symm ▸ hi), Image.size_slice hw] at heq
  rw [Image.byte_overlay (hpart.symm ▸ hi), Image.size_slice hw]
  split
  · rename_i hin
    rw [Image.byte_slice (by omega), Nat.add_sub_cancel' hin.1]
  · rename_i hout
    rw [if_neg hout] at heq
    exact h i hi heq

/-- Once the copy holds what is wanted, so does the block. -/
theorem Follows.shows (h : Follows part cur want) (hwant : want.size = b.size)
    (hs : e.Shows b part dev) (hcur : cur = want) : e.Shows b want dev := by
  have hpart : part = want := Image.ext_byte (hs.size.trans hwant.symm) fun i hi =>
    h i (by rwa [hwant, ← hs.size]) (by rw [hcur])
  exact hpart ▸ hs

/-- **The writes of a chip that erases on its own** make the block what it should be, if no command
is refused. -/
theorem writeWindows_follows (hc : Reliable e.config) (hchip : e.config.chip = chip)
    (himplicit : chip.granularity = .byteImplicitErase) (hfree : ∀ err, ¬e.Refuses b err)
    (hb : b.start + b.size ≤ e.memory.size) (hwant : want.size = b.size) (erased : Bool)
    (hs : e.Shows b part ex.session.device) (hfollows : Follows part ex.current want)
    (hmatches : Matches chip.granularity ex.current want 0) :
    Ends (writeWindows device chip policy b want erased want.size 0) ex fun r ex' =>
      (∃ written, r = .ok written) ∧ e.Shows b want ex'.session.device := by
  refine (writeWindows_ends
    (J := fun offset ex => Matches chip.granularity ex.current want offset ∧
      ∃ part, e.Shows b part ex.session.device ∧ Follows part ex.current want)
    (Q := fun r ex => r = .ok () ∧ e.Shows b want ex.session.device) ?_ ?_
    (Nat.zero_add _).ge ⟨hmatches, part, hs, hfollows⟩).mono ?_
  · rintro offset ex ⟨hmatches, part, hs, hfollows⟩ hend
    exact ⟨rfl, hfollows.shows hwant hs (hmatches.eq hend)⟩
  · rintro offset w ex ⟨hmatches, part, hs, hfollows⟩ hw
    have hin : w.stop ≤ want.size := (nextWindow?_bounds hw).2.2.trans (Nat.min_le_right _ _)
    have hprogram : programmed chip (Image.slice part w) (Image.slice want w) =
        Image.slice want w := if_pos himplicit
    refine (writeWindow_stores hc hchip hb hs (hwant ▸ hin) hwant hprogram erased).mono ?_
    rintro (err | _) ex₁ h₁
    · obtain ⟨-, -, hrefuses⟩ := h₁
      exact absurd hrefuses (hfree _)
    · obtain ⟨h₁, hcurrent⟩ := h₁
      have hfollows₁ := hfollows.next (hs.size.trans hwant.symm) hmatches.size hin
      have hmatches₁ := hmatches.next hw
      rw [← hcurrent] at hfollows₁ hmatches₁
      exact ⟨hmatches₁, _, h₁, hfollows₁⟩
  · rintro (err | written) ex' ⟨hr, h'⟩
    · cases hr
    · exact ⟨⟨written, rfl⟩, h'⟩

/-- **One block** is erased whatever the chip holds, if the copy holds the inverse of the erased
value everywhere and no command is refused. -/
theorem processBlock_erases (hc : Reliable e.config) (hchip : e.config.chip = chip)
    (hbits : chip.BitsErased) (hfree : ∀ err, ¬e.Refuses b err) (hpos : 0 < b.size)
    (hb : b.start + b.size ≤ e.memory.size) (hs : e.Shows b part ex.session.device)
    (hcur : ex.current = Image.blank b.size (~~~chip.erasedValue)) :
    Ends (processBlock device chip policy b (Image.blank b.size chip.erasedValue)) ex fun r ex' =>
      (∃ outcome, r = .ok outcome) ∧
      e.Shows b (Image.blank b.size chip.erasedValue) ex'.session.device ∧
      (chip.granularity ≠ .byteImplicitErase →
        ex'.session.device.changes = ex.session.device.changes ++ [b.operation]) := by
  have hsize : ex.current.size = b.size := hcur ▸ Image.size_blank
  refine processBlock_ends (P := fun erased ex' => if erased then
      e.Shows b (Image.blank b.size chip.erasedValue) ex'.session.device ∧
      ex'.current = Image.blank b.size chip.erasedValue ∧
      ex'.session.device.changes = ex.session.device.changes ++ [b.operation]
    else ex' = ex ∧ chip.granularity = .byteImplicitErase) (fun _ => ?_) (fun hkeep => ?_) ?_
  · refine ((eraseBlock_clears hc hchip hb hs hsize).and eraseBlock_changes).mono ?_
    rintro (err | _) ex' ⟨h', hchanges⟩
    · exact absurd h'.2.2 (hfree _)
    · exact ⟨h'.1, h'.2, hchanges rfl⟩
  · refine ⟨rfl, ?_⟩
    -- only a chip that erases on its own does without an erase
    by_contra hg
    rw [hcur, needErase_inverse hpos hg hbits] at hkeep
    cases hkeep
  · rintro (_ | _) ex' h'
    · obtain ⟨rfl, himplicit⟩ := h'
      have hwant : (Image.blank b.size chip.erasedValue).size = b.size := Image.size_blank
      -- the copy nowhere holds what is wanted
      have hfollows : Follows part ex'.current (Image.blank b.size chip.erasedValue) := by
        intro i hi heq
        rw [hwant] at hi
        rw [hcur, Image.byte_blank hi, Image.byte_blank hi] at heq
        exact absurd heq UInt8.not_ne_self
      refine (writeWindows_follows hc hchip himplicit hfree hb hwant false hs hfollows
        (matches_start _ (hsize.trans hwant.symm))).mono ?_
      rintro _ ex'' ⟨⟨written, rfl⟩, h''⟩
      exact ⟨⟨_, rfl⟩, h'', fun hg => absurd himplicit hg⟩
    · obtain ⟨hshows, hcurrent, hchanges⟩ := h'
      refine (writeWindows_idle hcurrent).mono ?_
      rintro _ ex'' ⟨⟨written, rfl⟩, rfl⟩
      exact ⟨⟨_, rfl⟩, hshows, fun _ => hchanges⟩

/-! ## All blocks -/

/-- The blocks in `past` are erased, and the copy holds the inverse of the erased value everywhere
else. Unless the chip erases on its own, what was recorded are the erases of these blocks. -/
structure Erasing (e : Emulator) (chip : Chip) (past : List Block) (dev : Emulator)
    (current : Image) : Prop where
  alike : e.Alike dev
  ready : dev.stuckBusy = false
  size : current.size = chip.totalSize
  left : ∀ a < chip.totalSize, (∀ b ∈ past, a ∉ b.span) → current.byte a = ~~~chip.erasedValue
  erased : ∀ b ∈ past, ∀ a ∈ b.span, dev.memory.byte a = chip.erasedValue
  changes : chip.granularity ≠ .byteImplicitErase →
    dev.changes = e.changes ++ past.map Block.operation

/-- A block apart from those in `past` is taken to hold the inverse of the erased value. -/
theorem Erasing.slice_left (h : e.Erasing chip past dev cur)
    (hb : b.start + b.size ≤ chip.totalSize)
    (hdis : ∀ c ∈ past, ∀ a ∈ c.span, a ∉ b.span) :
    Image.slice cur b.span = Image.blank b.size (~~~chip.erasedValue) := by
  have hslice : (Image.slice cur b.span).size = b.size := Image.size_slice (h.size.symm ▸ hb)
  refine Image.ext_byte (hslice.trans Image.size_blank.symm) fun i hi => ?_
  rw [hslice] at hi
  have hin : b.start + i ∈ b.span := ⟨Nat.le_add_right _ _, by simp only [Block.span]; omega⟩
  rw [Image.byte_slice hi, Image.byte_blank hi]
  exact h.left (b.start + i) (by omega) fun c hc hac => hdis c hc _ hac hin

/-- **One more block**, apart from those before it. -/
theorem Erasing.next (h : e.Erasing chip past dev cur) (hb : b.start + b.size ≤ dev.memory.size)
    (hdis : ∀ c ∈ past, ∀ a ∈ c.span, a ∉ b.span)
    (hs : dev.Shows b (Image.blank b.size chip.erasedValue) dev') (hpart : part.size = b.size)
    (hchanges : chip.granularity ≠ .byteImplicitErase →
      dev'.changes = dev.changes ++ [b.operation]) :
    e.Erasing chip (past ++ [b]) dev' (Image.overlay cur b.start part) := by
  have hblank : (Image.blank b.size chip.erasedValue).size = b.size := Image.size_blank
  refine ⟨h.alike.trans hs.alike, hs.ready, Image.size_overlay.trans h.size, fun a ha hout => ?_,
    fun c hc a ha => ?_, fun hg => ?_⟩
  · have hab : a ∉ b.span := hout b (by simp)
    rw [Image.byte_overlay_outside (by rw [hpart]; exact hab)]
    exact h.left a ha fun c hc => hout c (List.mem_append_left _ hc)
  · rw [hs.memory]
    rcases List.mem_append.1 hc with hc | hc
    · -- the block that was erased now is elsewhere
      rw [Image.byte_overlay_outside (by rw [hblank]; exact hdis c hc a ha)]
      exact h.erased c hc a ha
    · rw [List.mem_singleton.1 hc] at ha
      obtain ⟨h1, h2⟩ := Span.mem_def.1 ha
      simp only [Block.span] at h1 h2
      rw [Image.byte_overlay (by omega), hblank, if_pos ⟨h1, h2⟩, Image.byte_blank (by omega)]
  · rw [hchanges hg, h.changes hg, List.append_assoc, List.map_append]
    rfl

/-- **One block of the plan**, apart from those before it. -/
theorem processBlock_erasing {new : Image} (hc : Reliable e.config) (hbits : chip.BitsErased)
    (hopen : e.config.protectedRanges = []) (he : e.Emulates chip)
    (hnew : new = Image.blank chip.totalSize chip.erasedValue)
    (hfree : b.function ∉ e.config.restricted) (hb : b.Legal chip)
    (hapart : ∀ c ∈ past, ∀ a ∈ c.span, a ∉ b.span)
    (h : e.Erasing chip past ex.session.device ex.current) :
    Ends (processBlock device chip policy b (Image.slice new b.span)) (ex.enter b) fun r ex' =>
      (∃ outcome, r = .ok outcome) ∧ e.Erasing chip (past ++ [b]) ex'.session.device
        (Image.overlay ex.current b.start ex'.current) := by
  have hconfig : ex.session.device.config = e.config := h.alike.config
  have he₁ : ex.session.device.Emulates chip :=
    ⟨hconfig ▸ he.follows, h.alike.size.trans he.size⟩
  have hin : b.start + b.size ≤ ex.session.device.memory.size := he₁.size.symm ▸ hb.inside
  have hwant : Image.slice new b.span = Image.blank b.size chip.erasedValue :=
    hnew ▸ Image.slice_blank hb.inside
  have hcur : (ex.enter b).current = Image.blank b.size (~~~chip.erasedValue) :=
    h.slice_left hb.inside hapart
  have haccepted : ∀ err, ¬ex.session.device.Refuses b err := fun err =>
    not_refuses he₁ hb (hconfig ▸ hfree) (hconfig ▸ hopen)
  have hblock : Ends (processBlock device chip policy b
      (Image.blank b.size chip.erasedValue)) (ex.enter b) _ :=
    processBlock_erases (hconfig ▸ hc) he₁.follows hbits haccepted hb.pos hin
      (Shows.refl h.ready hin) hcur
  rw [hwant]
  refine (hblock.and processBlock_counts).mono ?_
  rintro r ex' ⟨⟨houtcome, hshows, hchanges⟩, hsize, -⟩
  have hpart : ex'.current.size = b.size :=
    hsize.trans (Image.size_slice (h.size.symm ▸ hb.inside))
  exact ⟨houtcome, h.next hin hapart hshows hpart hchanges⟩

/-- **Blocks without a common address** are erased one after the other, whatever the chip holds. -/
theorem processBlocks_erases {new : Image} {done : ℕ} (hc : Reliable e.config)
    (hbits : chip.BitsErased) (hopen : e.config.protectedRanges = []) (he : e.Emulates chip)
    (hnew : new = Image.blank chip.totalSize chip.erasedValue)
    (hlegal : ∀ b ∈ bs, b.function ∉ e.config.restricted ∧ b.Legal chip)
    (hdis : bs.Pairwise fun b c => ∀ a ∈ b.span, a ∉ c.span)
    (h : e.Erasing chip [] ex.session.device ex.current) :
    Ends (processBlocks device chip policy new bs done) ex fun r ex' =>
      r = .ok () ∧ e.Erasing chip bs ex'.session.device ex'.current := by
  refine processBlocks_past (J := fun past dev current _ => e.Erasing chip past dev current)
    (Q := fun r dev current _ => r = .ok () ∧ e.Erasing chip bs dev current)
    (fun dev current _ herasing => ⟨rfl, herasing⟩) ?_ h
  intro past b rest ex₁ hbs herasing
  obtain ⟨hfree, hb⟩ := hlegal b (by rw [hbs]; simp)
  have hapart := Block.apart hdis hbs
  refine (processBlock_erasing hc hbits hopen he hnew hfree hb hapart herasing).mono ?_
  rintro _ ex₂ ⟨⟨outcome, rfl⟩, herasing₂⟩
  exact herasing₂

/-- **The whole plan**, if its blocks cover the chip. -/
theorem executePlan_erases {plan : Plan} (hc : Reliable e.config) (hbits : chip.BitsErased)
    (hopen : e.config.protectedRanges = []) (he : e.Emulates chip) (hready : e.stuckBusy = false)
    (hnew : plan.new = Image.blank chip.totalSize chip.erasedValue)
    (hlegal : ∀ b ∈ plan.blocks, b.function ∉ e.config.restricted ∧ b.Legal chip)
    (hdis : plan.blocks.Pairwise fun b c => ∀ a ∈ b.span, a ∉ c.span)
    (hcovered : ∀ a < chip.totalSize, ∃ b ∈ plan.blocks, a ∈ b.span) (h : e.OnlyRead s.device) :
    Ends (executePlan device chip plan
        (Image.blank chip.totalSize (~~~chip.erasedValue)) policy) s fun r s' =>
      (∃ stats, r.1 = .ok stats) ∧ e.Holds plan.new s'.device ∧
      (chip.granularity ≠ .byteImplicitErase →
        s'.device.changes = e.changes ++ plan.blocks.map Block.operation) := by
  have hblank : ∀ v, (Image.blank chip.totalSize v).size = chip.totalSize := fun _ =>
    Image.size_blank
  refine executePlan_ends (Q := fun r _ dev => (∃ stats, r = .ok stats) ∧ e.Holds plan.new dev ∧
    (chip.granularity ≠ .byteImplicitErase →
      dev.changes = e.changes ++ plan.blocks.map Block.operation))
    ((hblank _).trans (hnew ▸ (hblank _).symm)) fun t ht => ?_
  have hstart : e.Erasing chip [] t.device (Image.blank chip.totalSize (~~~chip.erasedValue)) := by
    rw [ht]
    refine ⟨h.alike, h.stuckBusy.trans hready, hblank _, fun a ha _ => Image.byte_blank ha, by simp,
      fun _ => h.changes.trans (List.append_nil _).symm⟩
  refine (processBlocks_erases hc hbits hopen he hnew hlegal hdis hstart).mono ?_
  rintro _ ex ⟨rfl, herasing⟩
  have hsize : ex.session.device.memory.size = chip.totalSize := herasing.alike.size.trans he.size
  refine ⟨⟨_, rfl⟩, ⟨herasing.alike.config, herasing.ready, ?_⟩, herasing.changes⟩
  rw [hnew]
  refine Image.ext_byte (hsize.trans (hblank _).symm) fun a ha => ?_
  rw [hsize] at ha
  obtain ⟨b, hb, hab⟩ := hcovered a ha
  rw [Image.byte_blank ha]
  exact herasing.erased b hb a hab

/-! ## Which functions are selected -/

/-- The filter that the options ask for allows the function. -/
def allows (e : Emulator) (options : WriteOptions) (i : ℕ) : Bool :=
  !options.probeErasers || (eraseFunction e.config i).isOk

theorem filterFor_answers (e : Emulator) (chip : Chip) (options : WriteOptions) :
    (filterFor options).Answers chip e.OnlyRead (e.allows options) := by
  intro i s h
  unfold filterFor allows
  cases options.probeErasers with
  | false => exact ⟨h, rfl⟩
  | true =>
    have hkeeps := vouches_dryRun (readsKeep_onlyRead e) chip i s h
    refine (hkeeps.and (dryRun_ends chip i h.toUntouched)).mono ?_
    rintro b s' ⟨⟨h', -⟩, -, hb⟩
    refine ⟨h', ?_⟩
    rw [Bool.eq_iff_iff, hb, Bool.not_true, Bool.false_or]
    cases eraseFunction e.config i with
    | ok f => exact iff_of_true ⟨f, rfl⟩ rfl
    | error err => exact iff_of_false (by rintro ⟨f, ⟨⟩⟩) Bool.false_ne_true

/-- If there are restricted functions, only a dry run keeps them away. -/
theorem not_mem_restricted_of_allows {options : WriteOptions} {i : ℕ}
    (hprobe : e.config.restricted = [] ∨ options.probeErasers = true)
    (h : e.allows options i = true) : i ∉ e.config.restricted := by
  rcases hprobe with hnone | hprobe
  · rw [hnone]
    exact List.not_mem_nil
  · unfold allows at h
    rw [hprobe, Bool.not_true, Bool.false_or] at h
    cases hf : eraseFunction e.config i with
    | ok f => exact not_mem_restricted hf
    | error err =>
      rw [hf] at h
      cases h

/-- **The same erasers are always selected**, as long as nothing is written or erased. -/
theorem exists_selection {options : WriteOptions} {extent : ℕ} (hu : chip.Uniform) (hs : chip.Sound)
    (he : e.Emulates chip) {i : ℕ} {f : EraseFunction} (hget : chip.eraseFunctions[i]? = some f)
    (husable : f.usable = true) (hfree : i ∉ e.config.restricted)
    (hprobe : e.config.restricted = [] ∨ options.probeErasers = true)
    (hextent : extent ≤ chip.totalSize) :
    ∃ es, es ≠ [] ∧ Nested es ∧ (∀ o ∈ es, o.function ∉ e.config.restricted ∧ chip.Offers o) ∧
      ∀ t : Session Emulator, e.OnlyRead t.device →
        Ends (selectErasers chip extent (filterFor options)) t fun r t' =>
          r = .ok es ∧ e.OnlyRead t'.device := by
  have hanswers := filterFor_answers e chip options
  have hallowed : e.allows options i = true := by
    unfold allows
    rw [eraseFunction_ok (he.follows.symm ▸ hget) husable hfree]
    exact Bool.or_true _
  have hselected : Ends (selectErasers chip extent (filterFor options)) ⟨e, #[], #[]⟩ _ :=
    (selectErasers_answers hanswers (OnlyRead.refl e)).and
      (selectErasers_uniform hu hs hextent hanswers.vouches hget husable (hanswers.admits hallowed)
        (OnlyRead.refl e))
  obtain ⟨⟨-, hknown⟩, -, es, hes, hne, hnested, hoffers⟩ := hselected
  refine ⟨es, hne, hnested, fun o ho => ?_, fun t ht => ?_⟩
  · exact ⟨not_mem_restricted_of_allows hprobe (hoffers o ho).1, (hoffers o ho).2⟩
  · refine (selectErasers_answers hanswers ht).mono ?_
    rintro _ t' ⟨ht', rfl⟩
    exact ⟨hknown.symm.trans hes, ht'⟩

/-! ## The whole of an erase -/

/-- What an erase of the whole chip with this eraser comes to: it succeeds, and unless the chip
erases on its own, what was recorded are the erases of block after block. -/
structure ErasedBy (e : Emulator) (chip : Chip) (o : Eraser) (r : Except OperationError Summary)
    (dev : Emulator) : Prop where
  success : ∃ summary, r = .ok summary
  memory : dev.memory = Image.blank chip.totalSize chip.erasedValue
  changes : chip.granularity ≠ .byteImplicitErase → dev.changes = e.changes ++
    (List.range (chip.totalSize / o.blockSize)).map fun j =>
      .erase o.function (j * o.blockSize) o.blockSize

/-- **Programming without a comparison** erases the chip in the coarsest blocks. -/
theorem program_erases {options : WriteOptions} {fine : List Eraser} {o : Eraser}
    (hu : chip.Uniform) (hs : chip.Sound) (hbits : chip.BitsErased) (he : e.Emulates chip)
    (hc : Reliable e.config) (hready : e.stuckBusy = false) (hopen : e.config.protectedRanges = [])
    (hnested : Nested (fine ++ [o]))
    (hoffers : ∀ o' ∈ fine ++ [o], o'.function ∉ e.config.restricted ∧ chip.Offers o')
    (hselect : ∀ t : Session Emulator, e.OnlyRead t.device →
      Ends (selectErasers chip chip.totalSize (filterFor options)) t fun r t' =>
        r = .ok (fine ++ [o]) ∧ e.OnlyRead t'.device)
    (h : e.OnlyRead s.device) :
    Ends (program device chip (Image.blank chip.totalSize (~~~chip.erasedValue))
        (Image.blank chip.totalSize chip.erasedValue) .wholeChip options) s fun r s' =>
      e.ErasedBy chip o r s'.device := by
  set old := Image.blank chip.totalSize (~~~chip.erasedValue) with hold
  set new := Image.blank chip.totalSize chip.erasedValue with hnew
  have holdsize : old.size = chip.totalSize := Image.size_blank
  have hnewsize : new.size = chip.totalSize := Image.size_blank
  have hwhole : o.blockSize ∣ chip.totalSize :=
    (hu.offers hs (hoffers o (List.mem_append_right _ (List.mem_singleton_self o))).2).1
  have hdirty : (Comparison.ofErasers chip (fine ++ [o]) old new).Dirty := by
    intro a ha
    simp only [Comparison.ofErasers] at ha ⊢
    rw [hold, hnew, Image.byte_blank ha, Image.byte_blank ha]
    exact ⟨UInt8.not_ne_self, UInt8.not_ne_self⟩
  have hunits := units_of_dirty hnested holdsize hnewsize hs.size_pos hwhole hdirty
  have hblocks := blocks_of_dirty hnested holdsize hnewsize hs.size_pos hwhole hdirty
  have hwell := wellFormed_ofErasers hnested holdsize hnewsize
  refine program_ends
    (R := fun r dev => r = .ok (Plan.ofErasers chip old new (fine ++ [o])) ∧ e.OnlyRead dev)
    (Q := e.ErasedBy chip o) ?_ ?_ ?_ ?_
  · refine (prepare_ends holdsize hnewsize
      (R := fun r dev => r = .ok (fine ++ [o]) ∧ e.OnlyRead dev) ?_).mono ?_
    · rw [requiredExtent, holdsize]
      exact hselect s h
    · rintro _ s' ⟨_, ⟨rfl, h'⟩, rfl⟩
      exact ⟨rfl, h'⟩
  · rintro err dev ⟨⟨⟩, -⟩
  · rintro _ dev ⟨⟨⟩, -⟩ hnil
    rw [hunits] at hnil
    cases hnil
  · rintro _ s₁ ⟨⟨⟩, h₁⟩ -
    have hcovered : ∀ a < chip.totalSize,
        ∃ b ∈ (Plan.ofErasers chip old new (fine ++ [o])).blocks, a ∈ b.span := fun a ha =>
      covered_ofErasers hu hs hnested (by simp) (fun o' ho' => (hoffers o' ho').2) holdsize hnewsize
        (hdirty a ha).1
    refine executeAssessed_ends ((executePlan_erases hc hbits hopen he hready hnew
      (fun b hb => legal_ofErasers (A := fun i => i ∉ e.config.restricted) hu hs hnested hoffers
        holdsize hnewsize hb) hwell.blocks_disjoint hcovered h₁).mono ?_)
    rintro ⟨_, image⟩ s₂ ⟨⟨stats, ⟨⟩⟩, hholds, hchanges⟩
    have hin : ∀ u ∈ (Plan.ofErasers chip old new (fine ++ [o])).units,
        u.stop ≤ s₂.device.memory.size := by
      rw [hholds.memory]
      exact fun u hu => (hwell.inside u hu).trans_eq hnewsize.symm
    refine ((verifyExecuted_passes chip options stats (hholds.config ▸ hopen) hholds.memory hin
      (Untouched.refl _)).and (verifyExecuted_keeps (readsKeep_changes _) stats s₂ rfl)).mono ?_
    rintro _ s₃ ⟨⟨⟨verified, rfl⟩, h₃⟩, hkept⟩
    refine ⟨⟨_, rfl⟩, h₃.memory.trans hholds.memory, fun hg => ?_⟩
    rw [hkept, hchanges hg, hblocks, List.map_map]
    rfl

/-- A reliable small chip with all its erase functions, which is slow. -/
def used : Emulator :=
  withData { chip := Chip.small, busyPolls := 999 } #[255, 255, 9, 9, 255, 0, 255, 255]

/-- **An erase without a comparison erases the chip**, whatever the chip holds, however it is
verified and whatever the policy is, if the chip is reliable and has no protected ranges, and if
there is a dry run where functions are restricted. Of the erasers that can be selected, it uses
those with the largest blocks. Unless the chip erases on its own, nothing is written, and the blocks
are erased one after the other from the start of the chip to its end. -/
theorem eraseImage_undiffed {options : WriteOptions} (hvalid : chip.validate = .ok ())
    (hu : chip.Uniform) (hbits : chip.BitsErased) (he : s.device.Emulates chip)
    (hbusy : s.device.StuckByAddress) (hc : Reliable s.device.config)
    (hopen : s.device.config.protectedRanges = [])
    (hfun : ∃ i f, chip.eraseFunctions[i]? = some f ∧ f.usable = true ∧
      i ∉ s.device.config.restricted)
    (hprobe : s.device.config.restricted = [] ∨ options.probeErasers = true)
    (hold : options.old = .noDiff) :
    ∃ summary s' es o, eraseImage device chip options s = (.ok summary, s') ∧
      s'.device.memory = Image.blank chip.totalSize chip.erasedValue ∧
      (selectErasers chip chip.totalSize (filterFor options) s).1 = .ok es ∧
      o ∈ es ∧ (∀ o' ∈ es, o'.blockSize ≤ o.blockSize) ∧ o.blockSize ∣ chip.totalSize ∧
      (chip.granularity ≠ .byteImplicitErase → s'.device.changes = s.device.changes ++
        (List.range (chip.totalSize / o.blockSize)).map fun j =>
          .erase o.function (j * o.blockSize) o.blockSize) := by
  have hs := Chip.validate_iff.1 hvalid
  have hready : s.device.stuckBusy = false :=
    Bool.eq_false_iff.2 fun hstuck => hbusy hstuck hc.stuckBusyAt
  obtain ⟨i, f, hget, husable, hfree⟩ := hfun
  obtain ⟨es, hne, hnested, hoffers, hselect⟩ :=
    exists_selection hu hs he hget husable hfree hprobe (Nat.le_refl chip.totalSize)
  have hselected : Ends (selectErasers chip chip.totalSize (filterFor options)) s _ :=
    hselect s (OnlyRead.refl s.device)
  -- the coarsest eraser is the last one
  obtain ⟨fine, o, rfl⟩ := (List.eq_nil_or_concat' es).resolve_left hne
  have hmem : o ∈ fine ++ [o] := List.mem_append_right _ (List.mem_singleton_self o)
  have hcoarsest : ∀ o' ∈ fine ++ [o], o'.blockSize ≤ o.blockSize := by
    intro o' ho'
    rcases List.mem_append.1 ho' with ho' | ho'
    · exact ((List.pairwise_append.1 hnested).2.2 o' ho' o (List.mem_singleton_self o)).1.le
    · rw [List.mem_singleton.1 ho']
  have hrun : Ends (eraseImage device chip options) s fun r s' =>
      s.device.ErasedBy chip o r s'.device := by
    refine eraseImage_ends (Q := s.device.ErasedBy chip o) ?_
    rw [hold]
    refine ends_pure fun t ht => ?_
    exact program_erases hu hs hbits he hc hready hopen hnested hoffers hselect
      (ht ▸ OnlyRead.refl s.device)
  obtain ⟨⟨summary, hok⟩, hmemory, hchanges⟩ := hrun
  exact ⟨summary, _, _, o, Prod.ext hok rfl, hmemory, hselected.1, hmem, hcoarsest,
    (hu.offers hs (hoffers o hmem).2).1, hchanges⟩

/-- The larger blocks of the small chip are erased, although its smaller ones could be as well. -/
theorem eraseImage_undiffed_used : ∃ summary s',
    eraseImage device Chip.small { old := .noDiff, verify := .units } ⟨used, #[], #[]⟩ =
      (.ok summary, s') ∧
    s'.device.memory = Image.blank 8 255 ∧
    s'.device.changes = [.erase 0 0 4, .erase 0 4 4] := by
  obtain ⟨summary, s', es, o, hrun, hmemory, hes, ho, hcoarsest, -, hchanges⟩ :=
    @eraseImage_undiffed Chip.small ⟨used, #[], #[]⟩ { old := .noDiff, verify := .units }
      rfl (by decide) (fun h => by cases h) ⟨rfl, rfl⟩ (stuckByAddress_withData _ _)
      ⟨rfl, rfl, by decide⟩ rfl ⟨0, .uniform 4 2, rfl, rfl, by decide⟩ (.inl rfl) rfl
  refine ⟨summary, s', hrun, hmemory, ?_⟩
  obtain rfl : es = [⟨1, 0, 2, by decide⟩, ⟨0, 0, 4, by decide⟩] := by
    cases hes
    rfl
  obtain rfl : o = ⟨0, 0, 4, by decide⟩ := by
    have hle := hcoarsest ⟨0, 0, 4, by decide⟩ (by simp)
    rcases List.mem_cons.1 ho with rfl | ho
    · exact absurd hle (by decide)
    · exact List.mem_singleton.1 ho
  exact hchanges (by decide)

end Emulator

end Reflash
