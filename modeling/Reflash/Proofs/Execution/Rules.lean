import Reflash.Proofs.Computation

/-!
# Rules for executions

An execution goes block after block. What it comes to follows from what one block
comes to, with an invariant about the device, the copy of the contents and the
counters while some blocks remain (`processBlocks_ends`). The log and the events
never matter.

* `writeWindows_ends`: the writes of a block, from each of them.
* `processBlock_ends`: one block, from its erase and its writes.
* `processBlocks_ends`, `processBlocks_past`, `executePlan_ends`: all blocks, from each of them.
-/

namespace Reflash

variable {σ : Type} {d : Device σ} {chip : Chip} {policy : Policy} {new : Image} {b : Block}

/-- What is known about the device, the copy of the contents and the counters. -/
abbrev Condition (σ : Type) := σ → Image → ExecutionStats → Prop

/-- After a block whose copy was cut out of `current`: either the execution goes on with `J`, with
the block counted as skipped or denied if it was, or it ends with `Q`. -/
def AfterBlock (policy : Policy) (b : Block) (current : Image) (J : Condition σ)
    (Q : Except ExecutionError Unit → Condition σ) :
    Except ExecutionError BlockOutcome → Execution σ → Prop
  | .ok outcome, ex =>
    J ex.session.device (Image.overlay current b.start ex.current)
      (if outcome = .skipped then { ex.stats with skipped := ex.stats.skipped + 1 } else ex.stats)
  | .error e, ex =>
    if policy.ignores e.cause then
      J ex.session.device (Image.overlay current b.start ex.current)
        { ex.stats with denied := ex.stats.denied + 1 }
    else Q (.error e) ex.session.device (Image.overlay current b.start ex.current) ex.stats

/-- The execution in which block `b` is processed, starting from `ex`. -/
def Execution.enter (ex : Execution σ) (b : Block) : Execution σ :=
  ⟨ex.session, Image.slice ex.current b.span, { ex.stats with visited := ex.stats.visited + 1 }⟩

/-- **All blocks**, with an invariant about those that remain. -/
theorem processBlocks_ends {J : List Block → Condition σ}
    {Q : Except ExecutionError Unit → Condition σ}
    (hnil : ∀ dev current stats, J [] dev current stats → Q (.ok ()) dev current stats)
    (hcons : ∀ b bs (ex : Execution σ), J (b :: bs) ex.session.device ex.current ex.stats →
      Ends (processBlock d chip policy b (Image.slice new b.span)) (ex.enter b)
        (AfterBlock policy b ex.current (J bs) Q))
    {bs : List Block} {done : ℕ} {ex : Execution σ}
    (h : J bs ex.session.device ex.current ex.stats) :
    Ends (processBlocks d chip policy new bs done) ex fun r ex' =>
      Q r ex'.session.device ex'.current ex'.stats := by
  induction bs generalizing done ex with
  | nil => exact hnil _ _ _ h
  | cons b bs ih =>
    have hb := hcons b bs ex h
    unfold processBlocks
    refine Ends.countThen ?_
    -- the block has a copy of its own, which is taken over whatever comes of it
    refine (ends_within (Q := fun r ex' => ∃ r' ex'', r = .ok r' ∧
      AfterBlock policy b ex.current (J bs) Q r' ex'' ∧
      ex' = ⟨ex''.session, Image.overlay ex.current b.start ex''.current, ex''.stats⟩)
      (hb.mono fun r ex' h' => ⟨r, ex', rfl, h', rfl⟩)).andThen ?_ ?_
    · rintro r _ ⟨_, ex', ⟨⟩, hafter, rfl⟩
      cases r with
      | ok outcome =>
        dsimp only
        by_cases hs : outcome = .skipped
        · rw [if_pos hs]
          simp only [AfterBlock, if_pos hs] at hafter
          exact Ends.countThen (Ends.stepNoteThen (Ends.stepReportThen (ih hafter)))
        · rw [if_neg hs]
          simp only [AfterBlock, if_neg hs] at hafter
          exact Ends.stepNoteThen (Ends.stepReportThen (ih hafter))
      | error e =>
        dsimp only
        -- an ignored error counts as a denied block, any other ends the execution
        by_cases hi : policy.ignores e.cause = true
        · rw [if_pos hi]
          simp only [AfterBlock, if_pos hi] at hafter
          exact Ends.countThen (Ends.stepNoteThen (Ends.stepReportThen (ih hafter)))
        · rw [if_neg hi]
          simp only [AfterBlock, if_neg hi] at hafter
          exact Ends.stepNoteThen hafter
    · rintro e _ ⟨r, ex', ⟨⟩, -⟩

/-- The execution goes on unless the block failed with an error that is not ignored. If what is
known does not depend on how many blocks are skipped or denied, nothing else matters. -/
theorem afterBlock_of {current : Image} {J : Condition σ}
    {Q : Except ExecutionError Unit → Condition σ} {r : Except ExecutionError BlockOutcome}
    {ex : Execution σ}
    (hgo : (∀ err, r = .error err → policy.ignores err.cause = true) → ∀ skipped denied,
      J ex.session.device (Image.overlay current b.start ex.current)
        { ex.stats with skipped := skipped, denied := denied })
    (hstop : ∀ err, r = .error err → policy.ignores err.cause = false →
      Q (.error err) ex.session.device (Image.overlay current b.start ex.current) ex.stats) :
    AfterBlock policy b current J Q r ex := by
  cases r with
  | ok outcome =>
    have hgo := hgo fun err herr => by cases herr
    unfold AfterBlock
    dsimp only
    split
    · exact hgo (ex.stats.skipped + 1) ex.stats.denied
    · exact hgo ex.stats.skipped ex.stats.denied
  | error err =>
    unfold AfterBlock
    dsimp only
    split
    · rename_i hign
      refine hgo (fun err' herr => ?_) ex.stats.skipped (ex.stats.denied + 1)
      cases herr
      exact hign
    · rename_i hkept
      exact hstop err rfl (Bool.eq_false_iff.2 hkept)

theorem AfterBlock.mono {current : Image} {J J' : Condition σ}
    {Q : Except ExecutionError Unit → Condition σ} {r : Except ExecutionError BlockOutcome}
    {ex : Execution σ} (h : AfterBlock policy b current J Q r ex)
    (hJ : ∀ dev current stats, J dev current stats → J' dev current stats) :
    AfterBlock policy b current J' Q r ex := by
  cases r with
  | ok outcome => exact hJ _ _ _ h
  | error err =>
    unfold AfterBlock at h ⊢
    dsimp only at h ⊢
    split at h
    · rename_i hign
      rw [if_pos hign]
      exact hJ _ _ _ h
    · rename_i hkept
      rw [if_neg hkept]
      exact h

/-- **All blocks**, with an invariant about those that have been processed. -/
theorem processBlocks_past {J : List Block → Condition σ}
    {Q : Except ExecutionError Unit → Condition σ} {bs : List Block}
    (hnil : ∀ dev current stats, J bs dev current stats → Q (.ok ()) dev current stats)
    (hcons : ∀ past b rest (ex : Execution σ), bs = past ++ b :: rest →
      J past ex.session.device ex.current ex.stats →
      Ends (processBlock d chip policy b (Image.slice new b.span)) (ex.enter b)
        (AfterBlock policy b ex.current (J (past ++ [b])) Q))
    {done : ℕ} {ex : Execution σ} (h : J [] ex.session.device ex.current ex.stats) :
    Ends (processBlocks d chip policy new bs done) ex fun r ex' =>
      Q r ex'.session.device ex'.current ex'.stats := by
  refine processBlocks_ends (J := fun rest dev current stats =>
    ∃ past, bs = past ++ rest ∧ J past dev current stats) ?_ ?_ ⟨[], rfl, h⟩
  · rintro dev current stats ⟨past, hbs, hpast⟩
    rw [List.append_nil] at hbs
    exact hnil dev current stats (hbs ▸ hpast)
  · rintro b rest ex ⟨past, hbs, hpast⟩
    have hsplit : bs = past ++ [b] ++ rest := by
      rw [hbs, List.append_assoc]
      rfl
    refine (hcons past b rest ex hbs hpast).mono fun r ex' hafter => ?_
    exact hafter.mono fun dev current stats hnext => ⟨past ++ [b], hsplit, hnext⟩

/-- Of blocks without a common address, those before one of them share none with it. -/
theorem Block.apart {past bs rest : List Block}
    (hdis : bs.Pairwise fun b c => ∀ a ∈ b.span, a ∉ c.span)
    (hbs : bs = past ++ b :: rest) : ∀ c ∈ past, ∀ a ∈ c.span, a ∉ b.span := by
  rw [hbs] at hdis
  intro c hc
  exact (List.pairwise_append.1 hdis).2.2 c hc b List.mem_cons_self

/-! ## Commands -/

/-- A command that changes something: it is recorded, the device is asked, perhaps the result is
checked, and then the copy catches up and the command is counted. `R` holds before the check and
`T` after it, or where there is none. -/
theorem command_ends {phase : Phase} {t : Span} {op check : Task σ FlashError Unit} {careful : Bool}
    {f : Image → Image} {g : ExecutionStats → ExecutionStats} {ex : Execution σ}
    {R T : Session σ → Prop} {Q : Except ExecutionError Unit → Execution σ → Prop}
    (hop : Ends op ex.session fun r s => match r with
      | .ok _ => R s
      | .error err => Q (.error ⟨phase, t.start, t.len, err⟩)
          ⟨s, ex.current, { ex.stats with contentChanged := true }⟩)
    (hcheck : careful = true → ∀ s, R s → Ends check s fun r s => match r with
      | .ok _ => T s
      | .error err => Q (.error ⟨phase, t.start, t.len, err⟩)
          ⟨s, ex.current, { ex.stats with contentChanged := true }⟩)
    (hskip : careful = false → ∀ s, R s → T s)
    (hdone : ∀ s, T s →
      Q (.ok ()) ⟨s, f ex.current, g { ex.stats with contentChanged := true }⟩) :
    Ends (do
      Step.count fun s => { s with contentChanged := true }
      Step.during phase t op
      if careful then Step.during phase t check
      Step.update f
      Step.count g : Step σ Unit) ex Q := by
  -- the operation and its check fail in the same way
  have hduring : ∀ {x : Task σ FlashError Unit} {s : Session σ} {P : Session σ → Prop},
      (Ends x s fun r s => match r with
        | .ok _ => P s
        | .error err => Q (.error ⟨phase, t.start, t.len, err⟩)
            ⟨s, ex.current, { ex.stats with contentChanged := true }⟩) →
      Ends (Step.during phase t x) ⟨s, ex.current, { ex.stats with contentChanged := true }⟩
        fun r ex' => match r with
          | .ok _ => P ex'.session ∧ ex' =
              ⟨ex'.session, ex.current, { ex.stats with contentChanged := true }⟩
          | .error err => Q (.error err) ex' := by
    intro x s P h
    refine ends_during (h.mono fun r s' h' => ?_)
    cases r with
    | ok _ => exact ⟨h', rfl⟩
    | error err => exact h'
  have hfinish : ∀ s, T s → Ends (do
      Step.update f
      Step.count g : Step σ Unit) ⟨s, ex.current, { ex.stats with contentChanged := true }⟩ Q :=
    fun s hs => Ends.updateThen (ends_count (hdone s hs))
  refine Ends.countThen ((hduring hop).andThen ?_ fun _ _ h => h)
  rintro _ ex₁ ⟨h₁, hex₁⟩
  rw [hex₁]
  dsimp only
  split
  · rename_i hcareful
    refine (hduring (hcheck hcareful _ h₁)).andThen ?_ fun _ _ h => h
    rintro _ ex₂ ⟨h₂, hex₂⟩
    rw [hex₂]
    exact hfinish _ h₂
  · rename_i hcareless
    exact hfinish _ (hskip (Bool.eq_false_iff.2 hcareless) _ h₁)

/-- **The erase of a block**, from the command and the check in paranoid mode. -/
theorem eraseBlock_checked {ex : Execution σ} {R T : Session σ → Prop}
    {Q : Except ExecutionError Unit → Execution σ → Prop}
    (hop : Ends (Device.ask (d.erase b.function b.start b.size)) ex.session fun r s => match r with
      | .ok _ => R s
      | .error err => Q (.error ⟨.erase, b.start, b.size, err⟩)
          ⟨s, ex.current, { ex.stats with contentChanged := true }⟩)
    (hcheck : policy.paranoid = true → ∀ s, R s →
      Ends (checkErased d b.span chip.erasedValue) s fun r s => match r with
        | .ok _ => T s
        | .error err => Q (.error ⟨.erase, b.start, b.size, err⟩)
            ⟨s, ex.current, { ex.stats with contentChanged := true }⟩)
    (hskip : policy.paranoid = false → ∀ s, R s → T s)
    (hdone : ∀ s, T s → Q (.ok ()) ⟨s, Image.blank ex.current.size chip.erasedValue,
      { ex.stats with
        contentChanged := true, erases := ex.stats.erases + 1
        bytesErased := ex.stats.bytesErased + b.size }⟩) :
    Ends (eraseBlock d chip policy b) ex Q := by
  unfold eraseBlock
  exact command_ends hop hcheck hskip hdone

/-- What the check of an erase finds is not used. -/
theorem eraseBlock_ends {ex : Execution σ} {R : Session σ → Prop}
    {Q : Except ExecutionError Unit → Execution σ → Prop}
    (hop : Ends (Device.ask (d.erase b.function b.start b.size)) ex.session fun r s => match r with
      | .ok _ => R s
      | .error err => Q (.error ⟨.erase, b.start, b.size, err⟩)
          ⟨s, ex.current, { ex.stats with contentChanged := true }⟩)
    (hcheck : policy.paranoid = true → ∀ s, R s →
      Ends (checkErased d b.span chip.erasedValue) s fun r s => match r with
        | .ok _ => R s
        | .error err => Q (.error ⟨.erase, b.start, b.size, err⟩)
            ⟨s, ex.current, { ex.stats with contentChanged := true }⟩)
    (hdone : ∀ s, R s → Q (.ok ()) ⟨s, Image.blank ex.current.size chip.erasedValue,
      { ex.stats with
        contentChanged := true, erases := ex.stats.erases + 1
        bytesErased := ex.stats.bytesErased + b.size }⟩) :
    Ends (eraseBlock d chip policy b) ex Q :=
  eraseBlock_checked hop hcheck (fun _ _ h => h) hdone

/-- **The write of a window**, from the command and the check in paranoid mode. -/
theorem writeWindow_checked {want : Image} {erased : Bool} {w : Span} {ex : Execution σ}
    {R T : Session σ → Prop} {Q : Except ExecutionError Unit → Execution σ → Prop}
    (hop : Ends (Device.ask (d.write (b.start + w.start) (Image.slice want w))) ex.session
      fun r s => match r with
      | .ok _ => R s
      | .error err => Q (.error ⟨.write, b.start + w.start, w.len, err⟩)
          ⟨s, ex.current, { ex.stats with contentChanged := true }⟩)
    (hcheck : (policy.paranoid && !erased) = true → ∀ s, R s →
      Ends (verifyRange d chip (Image.slice want w) (b.start + w.start) policy) s
        fun r s => match r with
        | .ok _ => T s
        | .error err => Q (.error ⟨.write, b.start + w.start, w.len, err⟩)
            ⟨s, ex.current, { ex.stats with contentChanged := true }⟩)
    (hskip : (policy.paranoid && !erased) = false → ∀ s, R s → T s)
    (hdone : ∀ s, T s → Q (.ok ()) ⟨s, Image.overlay ex.current w.start (Image.slice want w),
      { ex.stats with
        contentChanged := true, writes := ex.stats.writes + 1
        bytesWritten := ex.stats.bytesWritten + w.len }⟩) :
    Ends (writeWindow d chip policy b want erased w) ex Q := by
  unfold writeWindow
  exact command_ends hop hcheck hskip hdone

/-- What the check of a write finds is not used. -/
theorem writeWindow_ends {want : Image} {erased : Bool} {w : Span} {ex : Execution σ}
    {R : Session σ → Prop} {Q : Except ExecutionError Unit → Execution σ → Prop}
    (hop : Ends (Device.ask (d.write (b.start + w.start) (Image.slice want w))) ex.session
      fun r s => match r with
      | .ok _ => R s
      | .error err => Q (.error ⟨.write, b.start + w.start, w.len, err⟩)
          ⟨s, ex.current, { ex.stats with contentChanged := true }⟩)
    (hcheck : (policy.paranoid && !erased) = true → ∀ s, R s →
      Ends (verifyRange d chip (Image.slice want w) (b.start + w.start) policy) s
        fun r s => match r with
        | .ok _ => R s
        | .error err => Q (.error ⟨.write, b.start + w.start, w.len, err⟩)
            ⟨s, ex.current, { ex.stats with contentChanged := true }⟩)
    (hdone : ∀ s, R s → Q (.ok ()) ⟨s, Image.overlay ex.current w.start (Image.slice want w),
      { ex.stats with
        contentChanged := true, writes := ex.stats.writes + 1
        bytesWritten := ex.stats.bytesWritten + w.len }⟩) :
    Ends (writeWindow d chip policy b want erased w) ex Q :=
  writeWindow_checked hop hcheck (fun _ _ h => h) hdone

/-- **The writes of a block**, with an invariant about the execution from window to window. They end
where nothing is left to write, since every window starts behind the one before. -/
theorem writeWindows_ends {want : Image} {erased : Bool} {J : ℕ → Execution σ → Prop}
    {Q : Except ExecutionError Unit → Execution σ → Prop}
    (hdone : ∀ offset (ex : Execution σ), J offset ex →
      nextWindow? ex.current want chip.granularity offset = none ∨ want.size ≤ offset →
        Q (.ok ()) ex)
    (hnext : ∀ offset w (ex : Execution σ), J offset ex →
      nextWindow? ex.current want chip.granularity offset = some w →
      Ends (writeWindow d chip policy b want erased w) ex fun r ex' => match r with
        | .ok _ => J w.stop ex'
        | .error err => Q (.error err) ex')
    {n offset : ℕ} (hn : want.size ≤ offset + n) {ex : Execution σ} (h : J offset ex) :
    Ends (writeWindows d chip policy b want erased n offset) ex fun r ex' => match r with
      | .ok _ => Q (.ok ()) ex'
      | .error err => Q (.error err) ex' := by
  induction n generalizing ex offset with
  | zero => exact ends_pure (hdone offset ex h (.inr hn))
  | succ n ih =>
    unfold writeWindows
    refine Ends.getThen ?_
    cases hw : nextWindow? ex.current want chip.granularity offset with
    | none => exact ends_pure (hdone offset ex h (.inl hw))
    | some w =>
      obtain ⟨hstart, hlen, -⟩ := nextWindow?_bounds hw
      have hbehind : want.size ≤ w.stop + n := by
        unfold Span.stop
        omega
      refine (hnext offset w ex h hw).andThen (fun _ ex₁ h₁ => ?_) fun _ _ h₁ => h₁
      exact (ih hbehind h₁).discardThen (fun _ _ h₂ => ends_pure h₂) fun _ _ h₂ => h₂

/-! ## Blocks -/

/-- **One block.** If its erase leads to `P true` or fails with `Q`, and its writes lead from there
to `Q`, it ends with `Q`. Without an erase the writes start from `P false`. -/
theorem processBlock_ends {want : Image} {ex : Execution σ} {P : Bool → Execution σ → Prop}
    {Q : Except ExecutionError BlockOutcome → Execution σ → Prop}
    (herase : needErase ex.current want chip.granularity chip.erasedValue = true →
      Ends (eraseBlock d chip policy b) ex fun r ex' => match r with
        | .ok () => P true ex'
        | .error e => Q (.error e) ex')
    (hkeep : needErase ex.current want chip.granularity chip.erasedValue = false → P false ex)
    (hwrite : ∀ erased ex', P erased ex' →
      Ends (writeWindows d chip policy b want erased want.size 0) ex' fun r ex'' =>
        Q (r.map (BlockOutcome.of erased)) ex'') :
    Ends (processBlock d chip policy b want) ex Q := by
  have hfinish : ∀ erased ex', P erased ex' →
      Ends (do
        let written ← writeWindows d chip policy b want erased want.size 0
        pure (BlockOutcome.of erased written) : Step σ BlockOutcome) ex' Q := fun erased ex' h' =>
    (hwrite erased ex' h').andThen (fun _ _ h => ends_pure h) fun _ _ h => h
  unfold processBlock
  refine Ends.getThen ?_
  dsimp only
  cases hneed : needErase ex.current want chip.granularity chip.erasedValue with
  | true =>
    rw [if_pos rfl]
    exact (herase hneed).andThen (fun _ ex' h' => hfinish true ex' h') fun _ _ h => h
  | false =>
    rw [if_neg Bool.false_ne_true]
    exact hfinish false ex (hkeep hneed)

/-- **The whole plan**, from its blocks. -/
theorem executePlan_ends {plan : Plan} {current : Image} {s : Session σ}
    {Q : Except ExecutionError ExecutionStats → Image → σ → Prop}
    (hsize : current.size = plan.new.size)
    (h : ∀ t : Session σ, t.device = s.device →
      Ends (processBlocks d chip policy plan.new plan.blocks 0) ⟨t, current, {}⟩ fun r ex =>
        Q (r.map fun _ => ex.stats) ex.current ex.session.device) :
    Ends (executePlan d chip plan current policy) s fun r s' => Q r.1 r.2 s'.device := by
  unfold executePlan
  rw [if_neg (not_not_intro hsize)]
  set s₁ : Session σ := ⟨s.device, s.log.push .executing, s.events⟩
  set s₂ : Session σ :=
    ⟨s.device, s.log.push .executing, s.events.push (.executing plan.units.length plan.totalBytes)⟩
  refine Ends.bind (R := fun _ t => t = s₁) (ends_note rfl) ?_
  rintro _ _ rfl
  refine Ends.bind (R := fun _ t => t = s₂) (show _ = s₂ from rfl) ?_
  rintro _ _ rfl
  refine Ends.bind (R := fun (r : Except ExecutionError Unit × Image × ExecutionStats) t =>
    Q (r.1.map fun _ => r.2.2) r.2.1 t.device) ?_ ?_
  · exact h s₂ rfl
  · rintro ⟨r, image, stats⟩ t h'
    cases r with
    | ok _ => exact h'
    | error e => exact h'

end Reflash
