import Reflash.Proofs.Device
import Reflash.Proofs.Execution.Rules
import Reflash.Proofs.Window

/-!
# Blocks that change

What holds of an execution whatever the device does. Erases and writes never touch
the counters of visited, skipped and denied blocks, and a block in which some byte
has to change is never skipped: it is erased or written, or the attempt fails.

* `processBlock_keeps`: one block.
* `processBlocks_changing`: blocks each of which has something to change.
* `processBlocks_keeps`, `executePlan_keeps`: what all operations of the device keep is kept.
* `executePlan_refused`: a plan is refused before the device is touched, or not at all.
-/

namespace Reflash

variable {σ : Type} {d : Device σ} {chip : Chip} {policy : Policy} {new want : Image} {b : Block}
  {I : σ → Prop} {ex ex₁ ex₂ : Execution σ}

/-- From `ex` to `ex'`, blocks are not counted, and a recorded change stays recorded. -/
structure Execution.Advances (ex ex' : Execution σ) : Prop where
  size : ex'.current.size = ex.current.size
  visited : ex'.stats.visited = ex.stats.visited
  skipped : ex'.stats.skipped = ex.stats.skipped
  denied : ex'.stats.denied = ex.stats.denied
  changed : ex.stats.contentChanged = true → ex'.stats.contentChanged = true

theorem Execution.Advances.refl (ex : Execution σ) : ex.Advances ex :=
  ⟨rfl, rfl, rfl, rfl, id⟩

theorem Execution.Advances.trans (h₁ : ex.Advances ex₁) (h₂ : ex₁.Advances ex₂) :
    ex.Advances ex₂ :=
  ⟨h₂.size.trans h₁.size, h₂.visited.trans h₁.visited, h₂.skipped.trans h₁.skipped,
    h₂.denied.trans h₁.denied, h₂.changed ∘ h₁.changed⟩

/-- The device was asked to change something, and still has `I`. -/
structure Execution.Touches (I : σ → Prop) (ex ex' : Execution σ) : Prop
    extends ex.Advances ex' where
  keeps : I ex'.session.device
  touched : ex'.stats.contentChanged = true

theorem checkErased_keeps (hd : d.ReadsKeep I) (s : Span) (erased : UInt8) :
    Keeps I (checkErased d s erased) := (checkErased_reads d s erased).keeps hd

theorem eraseBlock_keeps (hd : d.Keeps I) (h : I ex.session.device) :
    Ends (eraseBlock d chip policy b) ex fun _ ex' => ex.Touches I ex' := by
  refine eraseBlock_ends (R := fun s => I s.device) ?_ ?_ ?_
  · refine (keeps_ask (hd.erase _ _ _) _ h).mono fun r s hs => ?_
    cases r with
    | ok _ => exact hs
    | error err => exact ⟨⟨rfl, rfl, rfl, rfl, fun _ => rfl⟩, hs, rfl⟩
  · refine fun _ s hs => (checkErased_keeps hd.toReadsKeep _ _ s hs).mono fun r s' hs' => ?_
    cases r with
    | ok _ => exact hs'
    | error err => exact ⟨⟨rfl, rfl, rfl, rfl, fun _ => rfl⟩, hs', rfl⟩
  · exact fun s hs => ⟨⟨Image.size_blank, rfl, rfl, rfl, fun _ => rfl⟩, hs, rfl⟩

theorem writeWindow_keeps (hd : d.Keeps I) {erased : Bool} {w : Span} (h : I ex.session.device) :
    Ends (writeWindow d chip policy b want erased w) ex fun _ ex' => ex.Touches I ex' := by
  refine writeWindow_ends (R := fun s => I s.device) ?_ ?_ ?_
  · refine (keeps_ask (hd.write _ _) _ h).mono fun r s hs => ?_
    cases r with
    | ok _ => exact hs
    | error err => exact ⟨⟨rfl, rfl, rfl, rfl, fun _ => rfl⟩, hs, rfl⟩
  · refine fun _ s hs => (verifyRange_keeps hd.toReadsKeep s hs).mono fun r s' hs' => ?_
    cases r with
    | ok _ => exact hs'
    | error err => exact ⟨⟨rfl, rfl, rfl, rfl, fun _ => rfl⟩, hs', rfl⟩
  · exact fun s hs => ⟨⟨Image.size_overlay, rfl, rfl, rfl, fun _ => rfl⟩, hs, rfl⟩

/-- With a window from the offset on, there is a write. Without one, nothing happens. -/
theorem writeWindows_keeps (hd : d.Keeps I) {erased : Bool} {n offset : ℕ}
    (h : I ex.session.device) :
    Ends (writeWindows d chip policy b want erased n offset) ex fun r ex' =>
      (ex' = ex ∧ r = .ok false ∧
        (n = 0 ∨ nextWindow? ex.current want chip.granularity offset = none)) ∨
      (ex.Touches I ex' ∧ r ≠ .ok false) := by
  induction n generalizing ex offset with
  | zero => exact .inl ⟨rfl, rfl, .inl rfl⟩
  | succ n ih =>
    unfold writeWindows
    refine Ends.getThen ?_
    split
    · exact .inl ⟨rfl, rfl, .inr ‹_›⟩
    · rename_i w hw
      refine (writeWindow_keeps hd h).andThen (fun _ ex₁ h₁ => ?_)
        fun e ex₁ h₁ => .inr ⟨h₁, by simp⟩
      refine (ih h₁.keeps).discardThen (fun _ ex₂ h₂ => ends_pure (.inr ⟨?_, by simp⟩))
        fun e ex₂ h₂ => .inr ⟨?_, by simp⟩
      -- whatever the other windows come to, the first one touched the device
      all_goals
        rcases h₂ with ⟨rfl, -⟩ | ⟨h₂, -⟩
        · exact h₁
        · exact ⟨h₁.toAdvances.trans h₂.toAdvances, h₂.keeps, h₂.touched⟩

theorem eq_of_nextWindow?_eq_none {cur : Image} {g : Granularity} (hsize : cur.size = want.size)
    (h : want.size = 0 ∨ nextWindow? cur want g 0 = none) : cur = want := by
  refine Image.ext_byte hsize fun i hi => ?_
  rcases h with h | h
  · omega
  · exact nextWindow?_eq_none Window.border_zero h i (Nat.zero_le _) (by omega)

/-- **One block**: either nothing happens, and the block holds what it should, or the device is
asked to change it, and the block does not count as skipped. -/
theorem processBlock_keeps (hd : d.Keeps I) (h : I ex.session.device) :
    Ends (processBlock d chip policy b want) ex fun r ex' =>
      (ex' = ex ∧ r = .ok .skipped ∧ (ex.current.size = want.size → ex.current = want)) ∨
      (ex.Touches I ex' ∧ r ≠ .ok .skipped) := by
  refine processBlock_ends (P := fun erased ex' =>
    (erased = false ∧ ex' = ex) ∨ (erased = true ∧ ex.Touches I ex')) (fun _ => ?_)
    (fun _ => .inl ⟨rfl, rfl⟩) ?_
  · refine (eraseBlock_keeps hd h).mono fun r ex' h' => ?_
    cases r with
    | ok _ => exact .inr ⟨rfl, h'⟩
    | error e => exact .inr ⟨h', by simp⟩
  · rintro _ ex' (⟨rfl, rfl⟩ | ⟨rfl, h'⟩)
    · refine (writeWindows_keeps hd h).mono ?_
      rintro r ex'' (⟨rfl, rfl, hnone⟩ | ⟨h'', hne⟩)
      · exact .inl ⟨rfl, rfl, fun hsize => eq_of_nextWindow?_eq_none hsize hnone⟩
      · refine .inr ⟨h'', fun hskip => hne ?_⟩
        rcases r with e | (_ | _)
        · cases hskip
        · rfl
        · cases hskip
    · refine (writeWindows_keeps hd h'.keeps).mono fun r ex'' h'' => .inr ⟨?_, ?_⟩
      · rcases h'' with ⟨rfl, -⟩ | ⟨h'', -⟩
        · exact h'
        · exact ⟨h'.toAdvances.trans h''.toAdvances, h''.keeps, h''.touched⟩
      · rcases r with e | (_ | _) <;> intro hskip <;> cases hskip

/-- The copy of a block keeps its size, and the block is not counted as denied yet. -/
theorem processBlock_counts : Ends (processBlock d chip policy b want) ex fun _ ex' =>
    ex'.current.size = ex.current.size ∧ ex'.stats.denied = ex.stats.denied := by
  refine (processBlock_keeps (keeps_trivial d) trivial).mono ?_
  rintro r ex' (⟨rfl, -⟩ | ⟨h, -⟩)
  · exact ⟨rfl, rfl⟩
  · exact ⟨h.size, h.denied⟩

/-! ## All blocks -/

/-- **What every operation of the device keeps** is kept by an execution. -/
theorem processBlocks_keeps (hd : d.Keeps I) {bs : List Block} {done : ℕ}
    (h : I ex.session.device) :
    Ends (processBlocks d chip policy new bs done) ex fun _ ex' => I ex'.session.device := by
  refine processBlocks_ends (J := fun _ dev _ _ => I dev) (Q := fun _ dev _ _ => I dev)
    (fun _ _ _ h' => h') (fun b bs ex' h' => ?_) h
  have hblock : Ends (processBlock d chip policy b (Image.slice new b.span)) (ex'.enter b) _ :=
    processBlock_keeps hd h'
  refine hblock.mono fun r ex'' h'' => ?_
  have hI : I ex''.session.device := by
    rcases h'' with ⟨rfl, -⟩ | ⟨h'', -⟩
    · exact h'
    · exact h''.keeps
  exact afterBlock_of (fun _ _ _ => hI) fun _ _ _ => hI

/-- The same of a whole plan, also if it is refused. -/
theorem executePlan_keeps (hd : d.Keeps I) {plan : Plan} {current : Image} {s : Session σ}
    (h : I s.device) : Ends (executePlan d chip plan current policy) s fun _ s' => I s'.device := by
  by_cases hsize : current.size = plan.new.size
  · exact executePlan_ends (Q := fun _ _ dev => I dev) hsize fun t ht =>
      processBlocks_keeps hd (ht ▸ h)
  · unfold executePlan
    rw [if_pos hsize]
    exact h

/-- Some byte in the span changes. -/
def Changing (current new : Image) (s : Span) : Prop := ∃ a ∈ s, current.byte a ≠ new.byte a

/-- What is put back into its own span changes nothing elsewhere. -/
theorem Changing.overlay {current part : Image} {s t : Span} (h : Changing current new t)
    (hsize : current.size = new.size) (hpart : part.size = s.len) (hdis : ∀ a ∈ s, a ∉ t) :
    Changing (Image.overlay current s.start part) new t := by
  obtain ⟨a, ha, hne⟩ := h
  refine ⟨a, ha, ?_⟩
  rw [Image.byte_overlay (Image.lt_size_of_ne hsize hne), if_neg]
  · exact hne
  · rw [hpart]
    exact fun hs => hdis a hs ha

/-- A span with a change in it does not hold what it should. -/
theorem Changing.slice_ne {current : Image} {s : Span} (h : Changing current new s) :
    Image.slice current s ≠ Image.slice new s := by
  obtain ⟨a, ⟨h1, h2⟩, hne⟩ := h
  intro heq
  have := congrArg (Image.byte · (a - s.start)) heq
  rw [Image.byte_slice (by omega), Image.byte_slice (by omega), Nat.add_sub_cancel' h1] at this
  exact hne this

/-- Blocks on the chip, without a common address, that all change. -/
structure AllChange (new : Image) (bs : List Block) (current : Image) : Prop where
  size : current.size = new.size
  inside : ∀ b ∈ bs, b.start + b.size ≤ new.size
  disjoint : bs.Pairwise fun b c => ∀ a ∈ b.span, a ∉ c.span
  changing : ∀ b ∈ bs, Changing current new b.span

/-- Whatever the first block was turned into, the others still change. -/
theorem AllChange.next {bs : List Block} {current part : Image}
    (h : AllChange new (b :: bs) current) (hpart : part.size = b.size) :
    AllChange new bs (Image.overlay current b.start part) := by
  obtain ⟨hdis, hrest⟩ := List.pairwise_cons.1 h.disjoint
  refine ⟨Image.size_overlay.trans h.size, fun c hc => h.inside c (List.mem_cons_of_mem _ hc),
    hrest, fun c hc => ?_⟩
  exact (h.changing c (List.mem_cons_of_mem _ hc)).overlay (s := b.span) h.size hpart (hdis c hc)

/-- **Blocks that all change** are not skipped, and if there is one, a change is recorded. -/
theorem processBlocks_changing {bs : List Block} {done : ℕ} (h : AllChange new bs ex.current) :
    Ends (processBlocks d chip policy new bs done) ex fun _ ex' =>
      ex'.stats.skipped = ex.stats.skipped ∧ (ex'.stats.contentChanged = true ∨ bs = []) := by
  refine processBlocks_ends
    (J := fun rest _ current stats => AllChange new rest current ∧
      stats.skipped = ex.stats.skipped ∧ (stats.contentChanged = true ∨ rest = bs))
    (Q := fun _ _ _ stats => stats.skipped = ex.stats.skipped ∧
      (stats.contentChanged = true ∨ bs = [])) ?_ ?_ ⟨h, rfl, .inr rfl⟩
  · rintro _ _ stats ⟨-, hskip, hchanged⟩
    exact ⟨hskip, hchanged.imp_right Eq.symm⟩
  · rintro b rest ex₁ ⟨hall, hskip, -⟩
    have hpart : (Image.slice ex₁.current b.span).size = b.size :=
      Image.size_slice (hall.size ▸ hall.inside b List.mem_cons_self)
    have hwant : (Image.slice new b.span).size = b.size :=
      Image.size_slice (hall.inside b List.mem_cons_self)
    refine (processBlock_keeps (keeps_trivial d) trivial).mono ?_
    rintro r ex₂ (⟨rfl, -, heq⟩ | ⟨h₂, hr⟩)
    -- a block that is left as it is would have nothing to change
    · exact absurd (heq (hpart.trans hwant.symm)) (hall.changing b List.mem_cons_self).slice_ne
    · have hnext := hall.next (h₂.size.trans hpart)
      have hskip₂ : ex₂.stats.skipped = ex.stats.skipped := h₂.skipped.trans hskip
      rcases r with e | outcome
      · simp only [AfterBlock]
        split
        · exact ⟨hnext, hskip₂, .inl h₂.touched⟩
        · exact ⟨hskip₂, .inl h₂.touched⟩
      · have hne : outcome ≠ .skipped := fun h => hr (h ▸ rfl)
        simp only [AfterBlock, if_neg hne]
        exact ⟨hnext, hskip₂, .inl h₂.touched⟩

/-! ## Errors -/

/-- An error, if there is one, is about a command and not about the check before all of them. -/
def AfterSetup {α : Type} (r : Except ExecutionError α) : Prop :=
  ∀ err, r = .error err → err.phase ≠ .setup

theorem afterSetup_ok {α : Type} (a : α) : AfterSetup (.ok a) := fun err h => by cases h

theorem afterSetup_error {α β : Type} {err : ExecutionError}
    (h : AfterSetup (.error err : Except _ α)) : AfterSetup (.error err : Except _ β) := by
  intro err' herr
  cases herr
  exact h err rfl

/-- What is done to the device in a later phase, whatever it comes to. -/
theorem ends_afterSetup {phase : Phase} (hphase : phase ≠ .setup) (t : Span)
    (x : Task σ FlashError Unit) (s : Session σ) : Ends x s fun r _ => match r with
      | .ok _ => True
      | .error err => AfterSetup (.error ⟨phase, t.start, t.len, err⟩ : Except _ Unit) := by
  unfold Ends
  cases (x s).1 with
  | ok _ => trivial
  | error err =>
    intro err' herr
    cases herr
    exact hphase

theorem eraseBlock_afterSetup :
    Ends (eraseBlock d chip policy b) ex fun r _ => AfterSetup r := by
  have hphase : Phase.erase ≠ .setup := by decide
  have hany := @ends_afterSetup σ .erase hphase b.span
  exact eraseBlock_ends (R := fun _ => True) (hany _ _) (fun _ s _ => hany _ s)
    fun _ _ => afterSetup_ok ()

theorem writeWindow_afterSetup {erased : Bool} {w : Span} :
    Ends (writeWindow d chip policy b want erased w) ex fun r _ => AfterSetup r := by
  have hphase : Phase.write ≠ .setup := by decide
  have hany := @ends_afterSetup σ .write hphase ⟨b.start + w.start, w.len⟩
  exact writeWindow_ends (R := fun _ => True) (hany _ _) (fun _ s _ => hany _ s)
    fun _ _ => afterSetup_ok ()

theorem writeWindows_afterSetup {erased : Bool} :
    Ends (writeWindows d chip policy b want erased want.size 0) ex fun r _ => AfterSetup r := by
  refine (writeWindows_ends (J := fun _ _ => True) (Q := fun r _ => AfterSetup r)
    (fun _ _ _ _ => afterSetup_ok ()) (fun _ _ _ _ _ => ?_) (Nat.zero_add _).ge trivial).mono ?_
  · refine writeWindow_afterSetup.mono fun r ex₁ h₁ => ?_
    cases r with
    | ok _ => trivial
    | error err => exact h₁
  · rintro (err | _) ex₁ h₁
    · exact afterSetup_error h₁
    · exact afterSetup_ok _

theorem processBlock_afterSetup :
    Ends (processBlock d chip policy b want) ex fun r _ => AfterSetup r := by
  refine processBlock_ends (P := fun _ _ => True) (fun _ => ?_) (fun _ => trivial)
    fun erased ex₁ _ => ?_
  · refine eraseBlock_afterSetup.mono fun r ex₁ h => ?_
    cases r with
    | ok _ => trivial
    | error err => exact afterSetup_error h
  · refine writeWindows_afterSetup.mono fun r ex₂ h => ?_
    cases r with
    | ok _ => exact afterSetup_ok _
    | error err => exact afterSetup_error h

/-- **A plan is refused before the device is touched**, or not at all. -/
theorem executePlan_refused {plan : Plan} {current : Image} {s : Session σ} :
    Ends (executePlan d chip plan current policy) s fun r s' =>
      ∀ err, r.1 = .error err → err.phase = .setup → s' = s ∧ current.size ≠ plan.new.size := by
  by_cases hsize : current.size = plan.new.size
  · have hrun : Ends (executePlan d chip plan current policy) s fun r _ => AfterSetup r.1 := by
      refine executePlan_ends (Q := fun r _ _ => AfterSetup r) hsize fun t _ => ?_
      have hblocks : Ends (processBlocks d chip policy plan.new plan.blocks 0) ⟨t, current, {}⟩
          fun r _ => AfterSetup r := by
        refine processBlocks_ends (J := fun _ _ _ _ => True) (Q := fun r _ _ _ => AfterSetup r)
          (fun _ _ _ _ => afterSetup_ok ()) (fun b bs ex _ => ?_) trivial
        refine processBlock_afterSetup.mono fun r ex' h => ?_
        refine afterBlock_of (fun _ _ _ => trivial) fun err herr _ => ?_
        rw [herr] at h
        exact afterSetup_error h
      refine hblocks.mono fun r ex' h => ?_
      cases r with
      | ok _ => exact afterSetup_ok _
      | error err => exact afterSetup_error h
    exact hrun.mono fun r s' h err herr hphase => absurd hphase (h err herr)
  · unfold executePlan
    rw [if_pos hsize]
    intro err _ _
    exact ⟨rfl, hsize⟩

end Reflash
