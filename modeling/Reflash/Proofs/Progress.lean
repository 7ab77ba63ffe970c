import Reflash.Proofs.Plan.Blocks
import Reflash.Proofs.Reprogram

/-!
# What is reported

An operation can be watched by its events. They come in phases, each of which may be missing:
the chip is read, a plan is executed, the result is verified, and the operation is complete.
What is reported in a phase tells whether it was successful (`ReadReported`,
`ExecutionReported`).

* `readImage_emits`: the events of reading.
* `processBlocks_emits`, `executePlan_emits`: those of an execution, block by block.
* `program_emits`, `program_reported`: from the plan on.
* `operations_reported`: whole operations, whatever they come to.
-/

namespace Reflash

variable {σ ε α β : Type} {d : Device σ} {chip : Chip} {old new want : Image} {policy : Policy}
  {mode : ExtentMode} {options : WriteOptions} {plan : Plan} {b : Block} {s : Session σ}

/-! ## Events of a computation -/

/-- Started in `s`, the computation ends with a result and reports events that satisfy `Q`. -/
def Emits (x : StateM (Session σ) α) (s : Session σ) (Q : α → List Progress → Prop) : Prop :=
  Ends x s fun a s' => ∃ es, s'.events.toList = s.events.toList ++ es ∧ Q a es

theorem Emits.mono {x : StateM (Session σ) α} {Q Q' : α → List Progress → Prop} (h : Emits x s Q)
    (hQ : ∀ a es, Q a es → Q' a es) : Emits x s Q' := by
  refine Ends.mono h ?_
  rintro a s' ⟨es, hes, h'⟩
  exact ⟨es, hes, hQ a es h'⟩

/-- A computation that leaves the events alone. -/
theorem emits_nothing {x : StateM (Session σ) α} {Q : α → List Progress → Prop}
    (h : Ends x s fun a s' => s'.events = s.events ∧ Q a []) : Emits x s Q := by
  refine h.mono ?_
  rintro a s' ⟨hevents, hQ⟩
  exact ⟨[], by rw [hevents, List.append_nil], hQ⟩

theorem emits_ok {a : α} {Q : Except ε α → List Progress → Prop} (h : Q (.ok a) []) :
    Emits (pure a : Task σ ε α) s Q := emits_nothing ⟨rfl, h⟩

theorem emits_throw {e : ε} {Q : Except ε α → List Progress → Prop} (h : Q (.error e) []) :
    Emits (throw e : Task σ ε α) s Q := emits_nothing ⟨rfl, h⟩

theorem emits_report {e : Progress} {Q : Unit → List Progress → Prop} (h : Q () [e]) :
    Emits (report e : StateM (Session σ) Unit) s Q := ⟨[e], Array.toList_push, h⟩

theorem emits_ask {op : σ → Reply σ α} {Q : Except FlashError α → List Progress → Prop}
    (h : ∀ r, Q r []) : Emits (Device.ask op) s Q := emits_nothing ⟨rfl, h _⟩

/-- **One after the other**, computations report their events one after the other. -/
theorem Emits.bind {x : StateM (Session σ) α} {f : α → StateM (Session σ) β}
    {R : α → List Progress → Prop} {Q : β → List Progress → Prop} (h : Emits x s R)
    (hf : ∀ a es s', R a es → Emits (f a) s' fun r es' => Q r (es ++ es')) :
    Emits (x >>= f) s Q := by
  refine Ends.bind h ?_
  rintro a s' ⟨es, hes, hR⟩
  refine Ends.mono (hf a es s' hR) ?_
  rintro r s'' ⟨es', hes', hQ⟩
  exact ⟨es ++ es', by rw [hes', hes, List.append_assoc], hQ⟩

/-- If the first computation fails, the second is not started. -/
theorem Emits.andThen {x : Task σ ε α} {f : α → Task σ ε β}
    {R : Except ε α → List Progress → Prop} {Q : Except ε β → List Progress → Prop}
    (h : Emits x s R)
    (hok : ∀ a es s', R (.ok a) es → Emits (f a) s' fun r es' => Q r (es ++ es'))
    (herr : ∀ e es, R (.error e) es → Q (.error e) es) : Emits (x >>= f : Task σ ε β) s Q := by
  refine @Emits.bind σ (Except ε α) (Except ε β) s x (ExceptT.bindCont f) R Q h ?_
  intro r es s' hR
  cases r with
  | ok a => exact hok a es s' hR
  | error e => exact emits_throw ((List.append_nil es).symm ▸ herr e es hR)

/-- The first computation cannot fail. -/
theorem Emits.liftThen {x : StateM (Session σ) α} {f : α → Task σ ε β}
    {R : α → List Progress → Prop} {Q : Except ε β → List Progress → Prop} (h : Emits x s R)
    (hf : ∀ a es s', R a es → Emits (f a) s' fun r es' => Q r (es ++ es')) :
    Emits (liftM x >>= f : Task σ ε β) s Q := by
  refine Ends.liftThen h ?_
  rintro a s' ⟨es, hes, hR⟩
  refine Ends.mono (hf a es s' hR) ?_
  rintro r s'' ⟨es', hes', hQ⟩
  exact ⟨es ++ es', by rw [hes', hes, List.append_assoc], hQ⟩

/-- The first result does not depend on the session. -/
theorem Emits.exceptThen {x : Except ε α} {f : α → Task σ ε β}
    {Q : Except ε β → List Progress → Prop} (hok : ∀ a, x = .ok a → Emits (f a) s Q)
    (herr : ∀ e, x = .error e → Q (.error e) []) :
    Emits (liftM x >>= f : Task σ ε β) s Q := by
  cases x with
  | ok a => exact hok a rfl
  | error e => exact emits_nothing ⟨rfl, herr e rfl⟩

theorem Emits.reportThen {e : Progress} {f : Unit → Task σ ε α}
    {Q : Except ε α → List Progress → Prop}
    (h : ∀ s', Emits (f ()) s' fun r es => Q r (e :: es)) :
    Emits (report e >>= f : Task σ ε α) s Q := by
  have hreport : Emits (report e : Task σ ε Unit) s fun r es => r = .ok () ∧ es = [e] :=
    ⟨[e], Array.toList_push, rfl, rfl⟩
  refine hreport.andThen ?_ ?_
  · rintro _ _ s' ⟨-, rfl⟩
    exact h s'
  · rintro err es ⟨⟨⟩, -⟩

theorem Emits.noteThen {r : LogRecord} {f : Unit → Task σ ε α}
    {Q : Except ε α → List Progress → Prop} (h : ∀ s', Emits (f ()) s' Q) :
    Emits (note r >>= f : Task σ ε α) s Q := h ⟨s.device, s.log.push r, s.events⟩

theorem emits_relabel {ε' : Type} {f : ε → ε'} {x : Task σ ε α}
    {Q : Except ε' α → List Progress → Prop} (h : Emits x s fun r es => Q (r.mapError f) es) :
    Emits (x.relabel f) s Q := ends_relabel h

/-- **Only reading** reports nothing. -/
theorem Device.Reads.emits {x : StateM (Session σ) α} (h : d.Reads x) (s : Session σ) :
    Emits x s fun a es => es = [] ∧ a = (x s).1 :=
  emits_nothing ((h.quiet s).and (show Ends x s fun a _ => [] = [] ∧ a = (x s).1 from ⟨rfl, rfl⟩))

/-! ## Reading -/

/-- What is reported when a chip of `size` bytes is read: the size, and how many bytes have been
read. It is one piece more each time at most. It is all of them exactly if the reading succeeds. -/
def ReadReported (size : ℕ) (succeeds : Prop) (es : List Progress) : Prop :=
  ∃ values : List ℕ, es = .reading size :: values.map .readProgress ∧
    (0 :: values).IsChain (fun m n => m < n ∧ n ≤ m + readPieceSize) ∧
    (succeeds ↔ values.getLastD 0 = size)

theorem ReadReported.congr {size : ℕ} {p q : Prop} {es : List Progress}
    (h : ReadReported size p es) (hiff : q ↔ p) : ReadReported size q es := by
  obtain ⟨values, hes, hchain, hlast⟩ := h
  exact ⟨values, hes, hchain, hiff.trans hlast⟩

theorem ReadReported.ne_nil {size : ℕ} {p : Prop} {es : List Progress}
    (h : ReadReported size p es) : es ≠ [] := by
  obtain ⟨values, rfl, -, -⟩ := h
  exact List.cons_ne_nil _ _

/-- Reading goes through some of the pieces, and stops before one that cannot be read. -/
theorem readPieces_emits (d : Device σ) (ps : List Span) (bytes : Image) (s : Session σ) :
    Emits (readPieces d ps bytes) s fun r es => ∃ past rest, ps = past ++ rest ∧
      es = (past.map Span.stop).map .readProgress ∧ (r.1 = .ok () ↔ rest = []) := by
  induction ps generalizing bytes s with
  | nil => exact emits_nothing ⟨rfl, [], [], rfl, rfl, iff_of_true rfl rfl⟩
  | cons p ps ih =>
    unfold readPieces
    refine Emits.bind (emits_ask (Q := fun _ es => es = []) fun _ => rfl) ?_
    rintro r _ s₁ rfl
    cases r with
    | error e =>
      exact emits_nothing ⟨rfl, [], p :: ps, rfl, rfl,
        iff_of_false (fun h => by cases h) (List.cons_ne_nil _ _)⟩
    | ok piece =>
      refine Emits.bind (emits_report (Q := fun _ es => es = [.readProgress p.stop]) rfl) ?_
      rintro _ _ s₂ rfl
      refine (ih _ s₂).mono ?_
      rintro r _ ⟨past, rest, rfl, rfl, hiff⟩
      exact ⟨p :: past, rest, rfl, rfl, hiff⟩

/-- What has been read after some of the pieces is all of them exactly if none is left. -/
theorem readReported_pieces {size : ℕ} {past rest : List Span}
    (hpieces : Span.pieces ⟨0, size⟩ readPieceSize = past ++ rest) :
    ReadReported size (rest = []) (.reading size :: (past.map Span.stop).map .readProgress) := by
  have htiles : Span.Tiles (Span.pieces ⟨0, size⟩ readPieceSize) 0 (Span.stop ⟨0, size⟩) :=
    Span.tiles_pieces (by decide)
  have hlen : ∀ t ∈ past ++ rest, 0 < t.len ∧ t.len ≤ readPieceSize := fun t ht =>
    Span.len_of_mem_pieces (by decide) (hpieces ▸ ht)
  rw [hpieces] at htiles
  obtain ⟨c, hpast, hrest⟩ := Span.tiles_append.1 htiles
  have hstop : Span.stop ⟨0, size⟩ = size := Nat.zero_add size
  obtain ⟨hchain, hlast⟩ := hpast.stops fun t ht => hlen t (List.mem_append_left _ ht)
  refine ⟨past.map Span.stop, rfl, hchain, ?_⟩
  rw [hlast]
  constructor
  · rintro rfl
    exact hrest.trans hstop
  · intro hall
    by_contra hne
    have hlt := hrest.lt hne fun t ht => (hlen t (List.mem_append_right _ ht)).1
    omega

/-- **Reading a chip.** -/
theorem readImage_emits (d : Device σ) (chip : Chip) (s : Session σ) :
    Emits (readImage d chip) s fun r es =>
      ReadReported chip.totalSize (∃ image, r = .ok image) es := by
  have hread : Emits (readChip d chip.totalSize) s fun r es =>
      ReadReported chip.totalSize (r.1 = .ok ()) es := by
    refine Emits.bind (emits_report (Q := fun _ es => es = [.reading chip.totalSize]) rfl) ?_
    rintro _ _ s₁ rfl
    refine Emits.bind (readPieces_emits d _ _ s₁) ?_
    rintro ⟨r, bytes⟩ _ s₂ ⟨past, rest, hpieces, rfl, hiff⟩
    refine emits_nothing ⟨rfl, ?_⟩
    rw [List.append_nil]
    exact (readReported_pieces hpieces).congr hiff
  refine Emits.liftThen hread ?_
  rintro ⟨r, image⟩ es s₁ h₁
  cases r with
  | ok _ =>
    refine emits_ok ?_
    rw [List.append_nil]
    exact h₁.congr (iff_of_true ⟨_, rfl⟩ rfl)
  | error e =>
    refine emits_throw ?_
    rw [List.append_nil]
    exact h₁.congr (iff_of_false (by rintro ⟨image, ⟨⟩⟩) (by rintro ⟨⟩))

/-! ## Executing -/

section Blocks

variable {ex : Execution σ} {erased : Bool} {w : Span}

/-- What is only asked for and read leaves the events of an execution alone. -/
theorem eraseBlock_quiet : Ends (eraseBlock d chip policy b) ex fun _ ex' =>
    ex'.session.events = ex.session.events := by
  refine eraseBlock_ends (R := fun s => s.events = ex.session.events) (ends_ask ?_)
    (fun _ s hs => ?_) fun s hs => hs
  · split <;> rfl
  · refine ((checkErased_reads d b.span chip.erasedValue).quiet s).mono fun r s' h => ?_
    cases r with
    | ok _ => exact h.trans hs
    | error err => exact h.trans hs

theorem writeWindow_quiet : Ends (writeWindow d chip policy b want erased w) ex fun _ ex' =>
    ex'.session.events = ex.session.events := by
  refine writeWindow_ends (R := fun s => s.events = ex.session.events) (ends_ask ?_)
    (fun _ s hs => ?_) fun s hs => hs
  · split <;> rfl
  · refine ((verifyRange_reads d chip).quiet s).mono fun r s' h => ?_
    cases r with
    | ok _ => exact h.trans hs
    | error err => exact h.trans hs

/-- **One block** reports nothing on its own. -/
theorem processBlock_quiet : Ends (processBlock d chip policy b want) ex fun _ ex' =>
    ex'.session.events = ex.session.events := by
  refine processBlock_ends (P := fun _ ex' => ex'.session.events = ex.session.events)
    (fun _ => ?_) (fun _ => rfl) fun erased ex' h' => ?_
  · refine eraseBlock_quiet.mono fun r ex' h => ?_
    cases r with
    | ok _ => exact h
    | error e => exact h
  · refine (writeWindows_ends (J := fun _ ex₁ => ex₁.session.events = ex.session.events)
      (Q := fun _ ex₁ => ex₁.session.events = ex.session.events) (fun _ _ h _ => h)
      (fun _ w ex₁ h₁ _ => ?_) (Nat.zero_add _).ge h').mono ?_
    · refine writeWindow_quiet.mono fun r ex₂ h₂ => ?_
      cases r with
      | ok _ => exact h₂.trans h₁
      | error e => exact h₂.trans h₁
    · rintro (e | _) ex₁ h₁
      · exact h₁
      · exact h₁

end Blocks

/-- The bytes of the first `k` blocks. -/
def firstBytes (bs : List Block) (k : ℕ) : ℕ := ((bs.take k).map Block.size).sum

/-- The events while `k` blocks are done, before which `done` bytes were. -/
def blockEvents (bs : List Block) (done k : ℕ) : List Progress :=
  (List.range k).map fun i => .blockDone (done + firstBytes bs (i + 1))

theorem blockEvents_cons {bs : List Block} {done k : ℕ} : blockEvents (b :: bs) done (k + 1) =
    .blockDone (done + b.size) :: blockEvents bs (done + b.size) k := by
  simp [blockEvents, firstBytes, List.range_succ_eq_map, Function.comp_def, Nat.add_assoc]

/-- **Block by block**, what is done is reported, up to a block that fails without being ignored. -/
theorem processBlocks_emits (bs : List Block) (done : ℕ) (ex : Execution σ) :
    Ends (processBlocks d chip policy new bs done) ex fun r ex' => ∃ k ≤ bs.length,
      ex'.session.events.toList = ex.session.events.toList ++ blockEvents bs done k ∧
        (r = .ok () ↔ k = bs.length) := by
  induction bs generalizing done ex with
  | nil => exact ⟨0, Nat.le_refl 0, (List.append_nil _).symm, iff_of_true rfl rfl⟩
  | cons b bs ih =>
    -- the block is reported, and then the others
    have hgo : ∀ ex₁ : Execution σ, ex₁.session.events = ex.session.events →
        Ends (do
          report (.blockDone (done + b.size))
          processBlocks d chip policy new bs (done + b.size) : Step σ Unit) ex₁ fun r ex' =>
            ∃ k ≤ (b :: bs).length,
              ex'.session.events.toList =
                ex.session.events.toList ++ blockEvents (b :: bs) done k ∧
              (r = .ok () ↔ k = (b :: bs).length) := by
      intro ex₁ h₁
      refine Ends.stepReportThen ((ih _ _).mono ?_)
      rintro r ex' ⟨k, hk, hevents, hiff⟩
      refine ⟨k + 1, Nat.succ_le_succ hk, ?_, ?_⟩
      · rw [hevents, h₁, blockEvents_cons]
        simp
      · rw [hiff, List.length_cons, Nat.succ_inj]
    have hblock : ∀ stats, Ends
        (Step.within b.span (processBlock d chip policy b (Image.slice new b.span)))
        ⟨ex.session, ex.current, stats⟩ fun r ex' =>
          (∃ r', r = .ok r') ∧ ex'.session.events = ex.session.events := fun stats =>
      ends_within (processBlock_quiet.mono fun r ex' h => ⟨⟨r, rfl⟩, h⟩)
    unfold processBlocks
    refine Ends.countThen ((hblock _).andThen ?_ ?_)
    · rintro r ex₁ ⟨-, h₁⟩
      cases r with
      | ok outcome =>
        dsimp only
        split
        · exact Ends.countThen (Ends.stepNoteThen (hgo _ h₁))
        · exact Ends.stepNoteThen (hgo _ h₁)
      | error e =>
        dsimp only
        split
        · exact Ends.countThen (Ends.stepNoteThen (hgo _ h₁))
        · refine Ends.stepNoteThen (ends_throw ?_)
          refine ⟨0, Nat.zero_le _, ?_, iff_of_false (fun h => by cases h) (by simp)⟩
          simp [h₁, blockEvents]
    · rintro e ex₁ ⟨⟨r, ⟨⟩⟩, -⟩

/-- What is reported when a plan is executed: its units and bytes, and after each block how many
bytes are done. These are the blocks of the plan in their order. All of them are done exactly if the
execution succeeds, and only then all bytes are. -/
def ExecutionReported (plan : Plan) (succeeds : Prop) (es : List Progress) : Prop :=
  ∃ k ≤ plan.blocks.length,
    es = .executing plan.units.length plan.totalBytes ::
      (List.range k).map (fun i => .blockDone (firstBytes plan.blocks (i + 1))) ∧
    (succeeds ↔ k = plan.blocks.length) ∧
    (succeeds ↔ firstBytes plan.blocks k = plan.totalBytes)

theorem ExecutionReported.congr {p q : Prop} {es : List Progress}
    (h : ExecutionReported plan p es) (hiff : q ↔ p) : ExecutionReported plan q es := by
  obtain ⟨k, hk, hes, hblocks, hbytes⟩ := h
  exact ⟨k, hk, hes, hiff.trans hblocks, hiff.trans hbytes⟩

theorem ExecutionReported.ne_nil {p : Prop} {es : List Progress}
    (h : ExecutionReported plan p es) : es ≠ [] := by
  obtain ⟨k, -, rfl, -, -⟩ := h
  exact List.cons_ne_nil _ _

/-- The blocks of a plan have the bytes of its units. -/
theorem firstBytes_blocks (plan : Plan) :
    firstBytes plan.blocks plan.blocks.length = plan.totalBytes := by
  have hunit : ∀ u : ProcessingUnit, (u.blocks.map Block.size).sum = u.size := by
    intro u
    simp [ProcessingUnit.blocks, ProcessingUnit.size, Function.comp_def, Nat.mul_comm]
  have hunits : ∀ us : List ProcessingUnit,
      ((us.flatMap ProcessingUnit.blocks).map Block.size).sum =
        us.foldr (fun u n => u.size + n) 0 := by
    intro us
    induction us with
    | nil => rfl
    | cons u us ih =>
      rw [List.flatMap_cons, List.map_append, List.sum_append, hunit, ih, List.foldr_cons]
  rw [firstBytes, List.take_length]
  exact hunits plan.units

/-- While a block is left, bytes are left. -/
theorem firstBytes_lt {bs : List Block} (hpos : ∀ b ∈ bs, 0 < b.size) {k : ℕ} (hk : k < bs.length) :
    firstBytes bs k < firstBytes bs bs.length := by
  have hsplit : bs = bs.take k ++ bs[k] :: bs.drop (k + 1) := by
    rw [← List.drop_eq_getElem_cons hk, List.take_append_drop]
  have hall : firstBytes bs bs.length =
      firstBytes bs k + (bs[k].size + ((bs.drop (k + 1)).map Block.size).sum) := by
    unfold firstBytes
    rw [List.take_length]
    conv_lhs => rw [hsplit]
    rw [List.map_append, List.sum_append, List.map_cons, List.sum_cons]
  have hnext := hpos bs[k] (List.getElem_mem hk)
  omega

/-- **The execution of a plan** without empty blocks. -/
theorem executePlan_emits {current : Image} (hsize : current.size = plan.new.size)
    (hpos : ∀ b ∈ plan.blocks, 0 < b.size) (s : Session σ) :
    Emits (executePlan d chip plan current policy) s fun r es =>
      ExecutionReported plan (∃ stats, r.1 = .ok stats) es := by
  have hreported : ∀ {k : ℕ}, k ≤ plan.blocks.length →
      ExecutionReported plan (k = plan.blocks.length)
        (.executing plan.units.length plan.totalBytes :: blockEvents plan.blocks 0 k) := by
    intro k hk
    refine ⟨k, hk, by simp [blockEvents], Iff.rfl, ?_⟩
    constructor
    · rintro rfl
      exact firstBytes_blocks plan
    · intro hbytes
      by_contra hne
      have hlt := firstBytes_lt hpos (Nat.lt_of_le_of_ne hk hne)
      rw [hbytes, firstBytes_blocks] at hlt
      exact absurd hlt (Nat.lt_irrefl _)
  unfold executePlan
  rw [if_neg (not_not_intro hsize)]
  refine Emits.bind (emits_nothing (Q := fun _ es => es = []) ⟨rfl, rfl⟩) ?_
  rintro _ _ s₁ rfl
  refine Emits.bind (emits_report (Q := fun _ es =>
    es = [.executing plan.units.length plan.totalBytes]) rfl) ?_
  rintro _ _ s₂ rfl
  refine Emits.bind (R := fun (r : Except ExecutionError Unit × Image × ExecutionStats) es =>
    ∃ k ≤ plan.blocks.length, es = blockEvents plan.blocks 0 k ∧
      (r.1 = .ok () ↔ k = plan.blocks.length)) ?_ ?_
  · have hrun : Ends (processBlocks d chip policy plan.new plan.blocks 0) ⟨s₂, current, {}⟩ _ :=
      processBlocks_emits plan.blocks 0 _
    obtain ⟨k, hk, hevents, hiff⟩ := hrun
    exact ⟨blockEvents plan.blocks 0 k, hevents, k, hk, rfl, hiff⟩
  rintro ⟨r, image, stats⟩ _ s₃ ⟨k, hk, rfl, hiff⟩
  have hk := hreported hk
  cases r with
  | ok _ =>
    refine emits_nothing ⟨rfl, ?_⟩
    rw [List.append_nil]
    exact hk.congr (iff_of_true ⟨stats, rfl⟩ (hiff.1 rfl))
  | error e =>
    refine emits_nothing ⟨rfl, ?_⟩
    rw [List.append_nil]
    exact hk.congr (iff_of_false (by rintro ⟨stats, ⟨⟩⟩) fun h => by cases hiff.2 h)

/-! ## Whole operations -/

theorem assessFailure_quiet {before : Image} : Ends (assessFailure d chip before) s fun _ s' =>
    s'.events = s.events := by
  have hread : ∀ t : Session σ, Ends (unreported (readImage d chip).run) t fun _ t' =>
      t'.events = t.events := fun t => ends_unreported (show _ from rfl)
  unfold assessFailure
  refine Ends.bind (ends_note (Q := fun _ s' => s'.events = s.events) rfl) fun _ s₁ h₁ => ?_
  refine Ends.bind (hread s₁) fun r s₂ h₂ => ?_
  cases r with
  | error e => exact h₂.trans h₁
  | ok after =>
    dsimp only
    split
    · exact h₂.trans h₁
    · exact h₂.trans h₁

/-- **An execution** is reported as such. Assessing a failure is not reported. -/
theorem executeAssessed_emits (hsize : plan.old.size = plan.new.size)
    (hpos : ∀ b ∈ plan.blocks, 0 < b.size) (s : Session σ) :
    Emits (executeAssessed d chip plan mode policy) s fun r es =>
      ExecutionReported plan (∃ stats, r = .ok stats) es ∧
        ∀ err, r = .error err → ∃ cause assessment, err = .execute cause assessment := by
  unfold executeAssessed
  refine Emits.liftThen (executePlan_emits hsize hpos s) ?_
  rintro ⟨r, image⟩ es s₁ hexecution
  cases r with
  | ok stats =>
    refine emits_ok ⟨?_, fun err h => by cases h⟩
    rw [List.append_nil]
    exact hexecution.congr (iff_of_true ⟨stats, rfl⟩ ⟨stats, rfl⟩)
  | error e =>
    have hfails : ∀ assessment, ExecutionReported plan
        (∃ stats, (.error (.execute e assessment) : Except OperationError ExecutionStats) =
          .ok stats) es := fun assessment =>
      hexecution.congr (iff_of_false (by rintro ⟨stats, ⟨⟩⟩) (by rintro ⟨stats, ⟨⟩⟩))
    cases mode with
    | wholeChip =>
      refine Emits.noteThen fun s₂ => emits_throw ⟨?_, fun err h => ⟨e, .unknown, by cases h; rfl⟩⟩
      rw [List.append_nil]
      exact hfails .unknown
    | diff =>
      have hassess : Emits (assessFailure d chip plan.old) s₁ fun _ es' => es' = [] :=
        emits_nothing (assessFailure_quiet.mono fun _ _ h => ⟨h, rfl⟩)
      refine Emits.liftThen hassess ?_
      rintro assessment _ s₂ rfl
      refine emits_throw ⟨?_, fun err h => ⟨e, assessment, by cases h; rfl⟩⟩
      rw [List.append_nil, List.append_nil]
      exact hfails assessment

/-- The verification is announced, if there is one. -/
theorem verifyExecuted_emits (hnew : plan.new.size = chip.totalSize)
    (htotal : plan.totalBytes ≤ chip.totalSize) (stats : ExecutionStats) (s : Session σ) :
    Emits (verifyExecuted d chip plan options stats) s fun r es =>
      (es = [] ∨ ∃ m ≤ chip.totalSize, es = [.verifying m]) ∧
        ∀ err, r = .error err → es ≠ [] ∧ ∃ cause, err = .verify cause := by
  unfold verifyExecuted
  split
  · exact emits_ok ⟨.inl rfl, fun err h => by cases h⟩
  · split
    · refine Emits.reportThen fun s₁ => ?_
      have hm : (if options.verify = .units then plan.totalBytes else plan.new.size) ≤
          chip.totalSize := by
        split <;> omega
      have hquiet : Emits ((verifyPlan d chip plan options.verify options.policy).relabel
          OperationError.verify) s₁ fun r es =>
            es = [] ∧ ∀ err, r = .error err → ∃ cause, err = .verify cause := by
        refine emits_relabel (((verifyPlan_reads d plan options.verify).emits s₁).mono ?_)
        rintro r es ⟨rfl, -⟩
        refine ⟨rfl, fun err h => ?_⟩
        cases r with
        | ok _ => cases h
        | error cause => exact ⟨cause, by cases h; rfl⟩
      refine hquiet.andThen ?_ ?_
      · rintro _ _ s₂ ⟨rfl, -⟩
        exact Emits.noteThen fun s₃ => emits_ok ⟨.inr ⟨_, hm, rfl⟩, fun err h => by cases h⟩
      · rintro err _ ⟨rfl, hcause⟩
        refine ⟨.inr ⟨_, hm, rfl⟩, fun err' h => ⟨List.cons_ne_nil _ _, ?_⟩⟩
        cases h
        exact hcause err rfl
    · exact Emits.noteThen fun s₁ => emits_ok ⟨.inl rfl, fun err h => by cases h⟩

/-- Planning is not reported. -/
theorem make_emits (options : WriteOptions) (s : Session σ) :
    Emits ((Plan.make chip old new mode
      (if options.probeErasers then EraserFilter.dryRun d else EraserFilter.all)).relabel
        OperationError.plan) s fun r es => es = [] ∧ match r with
        | .ok plan => plan.MadeFrom d chip old new mode options s
        | .error err => ∃ cause, err = .plan cause := by
  have hfilter : ∀ i, d.Reads ((if options.probeErasers then EraserFilter.dryRun d
      else EraserFilter.all : EraserFilter σ) chip i) := by
    intro i
    split
    · exact dryRun_reads d i
    · exact .pure true
  refine emits_relabel (((prepare_reads hfilter old new).emits s).mono ?_)
  rintro r es ⟨rfl, hr⟩
  refine ⟨rfl, ?_⟩
  cases r with
  | ok plan => exact hr.symm
  | error cause => exact ⟨cause, rfl⟩

/-- The last event of an operation, if it was successful. -/
def completion : Except OperationError Summary → List Progress
  | .ok summary => [.complete summary]
  | .error _ => []

/-- What an operation that comes to `r` reports when it reads, executes and verifies. A phase that
is missing reports nothing. The plan that is executed was `made` by the operation. -/
structure Reported (made : Plan → Prop) (chip : Chip) (r : Except OperationError Summary)
    (read run check : List Progress) : Prop where
  reading : read = [] ∨ ReadReported chip.totalSize (∀ cause, r ≠ .error (.read cause)) read
  executing : run = [] ∨ ∃ plan, made plan ∧ plan.totalBytes ≤ chip.totalSize ∧
    (∀ summary, r = .ok summary → summary.units = plan.units.length) ∧
    ExecutionReported plan (∀ cause assessment, r ≠ .error (.execute cause assessment)) run
  verifying : check = [] ∨ ∃ m ≤ chip.totalSize, check = [.verifying m]
  /-- Where nothing is executed and nothing failed, there was nothing to do. -/
  idle : run = [] → ∀ summary, r = .ok summary →
    summary.units = 0 ∧ ∃ plan, made plan ∧ plan.units = []
  /-- Where reading fails, nothing is executed. -/
  unread : ∀ cause, r = .error (.read cause) → read ≠ [] ∧ run = []
  unplanned : ∀ cause, r = .error (.plan cause) → run = []
  /-- Where the execution fails, nothing is verified. -/
  unexecuted : ∀ cause assessment, r = .error (.execute cause assessment) → run ≠ [] ∧ check = []
  unverified : ∀ cause, r = .error (.verify cause) → check ≠ []
  /-- Only what was executed is verified. -/
  executed : check ≠ [] → run ≠ []

section Reported

variable {made made' : Plan → Prop} {r : Except OperationError Summary}
  {read run check : List Progress}

theorem Reported.mono (h : Reported made chip r read run check)
    (hmade : ∀ plan, made plan → made' plan) : Reported made' chip r read run check where
  reading := h.reading
  executing := h.executing.imp_right fun ⟨plan, hplan, hrun⟩ => ⟨plan, hmade plan hplan, hrun⟩
  verifying := h.verifying
  idle hrun summary hok := by
    obtain ⟨hunits, plan, hplan, hnil⟩ := h.idle hrun summary hok
    exact ⟨hunits, plan, hmade plan hplan, hnil⟩
  unread := h.unread
  unplanned := h.unplanned
  unexecuted := h.unexecuted
  unverified := h.unverified
  executed := h.executed

/-- Without a plan, nothing is reported. -/
theorem reported_unplanned (cause : FlashError) :
    Reported made chip (.error (.plan cause)) [] [] [] where
  reading := .inl rfl
  executing := .inl rfl
  verifying := .inl rfl
  idle _ _ := nofun
  unread := nofun
  unplanned _ _ := rfl
  unexecuted := nofun
  unverified := nofun
  executed h := absurd rfl h

/-- Nor is anything if there is nothing to do. -/
theorem reported_identical {summary : Summary} (hplan : made plan) (hnil : plan.units = [])
    (hunits : summary.units = 0) : Reported made chip (.ok summary) [] [] [] where
  reading := .inl rfl
  executing := .inl rfl
  verifying := .inl rfl
  idle := by
    rintro - _ ⟨⟩
    exact ⟨hunits, plan, hplan, hnil⟩
  unread := nofun
  unplanned := nofun
  unexecuted := nofun
  unverified := nofun
  executed h := absurd rfl h

/-- Where the chip cannot be read, that is all. -/
theorem reported_unread {cause : FlashError} (hread : ReadReported chip.totalSize False read) :
    Reported made chip (.error (.read cause)) read [] [] where
  reading := .inr (hread.congr (iff_of_false (fun h => h cause rfl) id))
  executing := .inl rfl
  verifying := .inl rfl
  idle _ _ := nofun
  unread _ _ := ⟨hread.ne_nil, rfl⟩
  unplanned := nofun
  unexecuted := nofun
  unverified := nofun
  executed h := absurd rfl h

/-- The phases of an operation that executes a plan and does not fail before. -/
theorem reported_executed (hplan : made plan) (htotal : plan.totalBytes ≤ chip.totalSize)
    (hunits : ∀ summary, r = .ok summary → summary.units = plan.units.length)
    (hrun : ExecutionReported plan (∀ cause assessment, r ≠ .error (.execute cause assessment)) run)
    (hcheck : check = [] ∨ ∃ m ≤ chip.totalSize, check = [.verifying m])
    (hread : ∀ cause, r ≠ .error (.read cause)) (hmake : ∀ cause, r ≠ .error (.plan cause))
    (hexecute : ∀ cause assessment, r = .error (.execute cause assessment) → check = [])
    (hverify : ∀ cause, r = .error (.verify cause) → check ≠ []) :
    Reported made chip r [] run check where
  reading := .inl rfl
  executing := .inr ⟨plan, hplan, htotal, hunits, hrun⟩
  verifying := hcheck
  idle hnil := absurd hnil hrun.ne_nil
  unread cause h := absurd h (hread cause)
  unplanned cause h := absurd h (hmake cause)
  unexecuted cause assessment h := ⟨hrun.ne_nil, hexecute cause assessment h⟩
  unverified := hverify
  executed _ := hrun.ne_nil

end Reported

/-- What is planned has no empty blocks and fits on the chip. -/
theorem make_fits {filter : EraserFilter σ} (h : (Plan.make chip old new mode filter s).1 = .ok plan) :
    plan.old.size = plan.new.size ∧ plan.new.size = chip.totalSize ∧
      plan.totalBytes ≤ chip.totalSize ∧ ∀ b ∈ plan.blocks, 0 < b.size := by
  obtain ⟨hold, hnew, es, -, -, hes, rfl⟩ := prepare_eq h
  refine ⟨hold.trans hnew.symm, hnew, (wellFormed_ofErasers hes hold hnew).total, fun b hb => ?_⟩
  obtain ⟨l, e, j, -, -, rfl⟩ := planned_of_mem_blocks hes hold hnew hb
  exact e.blockSize_pos

/-- **From the plan on**, an operation is reported. -/
theorem program_emits (s : Session σ) :
    Emits (program d chip old new mode options) s fun r es =>
      (∀ cause, r ≠ .error (.read cause)) ∧
        ∃ run check, es = run ++ check ++ completion r ∧
          Reported (fun plan => plan.MadeFrom d chip old new mode options s) chip r
            [] run check := by
  unfold program
  refine (make_emits options s).andThen ?_ ?_
  · rintro plan _ s₁ ⟨rfl, hplan⟩
    obtain ⟨hsizes, hnew, htotal, hpos⟩ := make_fits hplan
    dsimp only
    split
    · rename_i hempty
      have hnil : plan.units = [] := List.isEmpty_iff.1 hempty
      refine Emits.noteThen fun s₂ => Emits.reportThen fun s₃ => emits_ok ?_
      exact ⟨nofun, [], [], rfl, reported_identical hplan hnil (List.length_eq_zero_iff.2 hnil)⟩
    · refine (executeAssessed_emits hsizes hpos s₁).andThen ?_ ?_
      · rintro stats run s₂ ⟨hrun, -⟩
        refine (verifyExecuted_emits hnew htotal stats s₂).andThen ?_ ?_
        · rintro verified check s₃ ⟨hcheck, -⟩
          refine Emits.reportThen fun s₄ => emits_ok ⟨nofun, run, check, by simp [completion], ?_⟩
          refine reported_executed hplan htotal ?_ ?_ hcheck nofun nofun nofun nofun
          · rintro _ ⟨⟩
            rfl
          · exact hrun.congr (iff_of_true nofun ⟨stats, rfl⟩)
        · rintro err check ⟨hcheck, herr⟩
          obtain ⟨hne, cause, rfl⟩ := herr err rfl
          refine ⟨nofun, run, check, by simp [completion], ?_⟩
          refine reported_executed hplan htotal nofun ?_ hcheck nofun nofun nofun fun _ _ => hne
          exact hrun.congr (iff_of_true nofun ⟨stats, rfl⟩)
      · rintro err run ⟨hrun, herr⟩
        obtain ⟨cause, assessment, rfl⟩ := herr err rfl
        refine ⟨nofun, run, [], by simp [completion], ?_⟩
        refine reported_executed hplan htotal nofun ?_ (.inl rfl) nofun nofun (fun _ _ _ => rfl)
          nofun
        exact hrun.congr (iff_of_false (fun h => h cause assessment rfl) (by rintro ⟨stats, ⟨⟩⟩))
  · rintro err _ ⟨rfl, cause, rfl⟩
    exact ⟨nofun, [], [], rfl, reported_unplanned cause⟩

/-- **Obtaining the old contents** is reported if the chip is read. -/
theorem oldContents_emits (assumed : UInt8) (source : OldContents) (s : Session σ) :
    Emits (oldContents d chip assumed source) s fun r es => match r with
      | .ok _ => es = [] ∨ ReadReported chip.totalSize True es
      | .error err => (es = [] ∧ ∃ cause, err = .plan cause) ∨
          (ReadReported chip.totalSize False es ∧ ∃ cause, err = .read cause) := by
  cases source with
  | readChip =>
    have hread : Emits ((readImage d chip).relabel OperationError.read) s fun r es => match r with
        | .ok _ => ReadReported chip.totalSize True es
        | .error err => ReadReported chip.totalSize False es ∧ ∃ cause, err = .read cause := by
      refine emits_relabel ((readImage_emits d chip s).mono fun r es h => ?_)
      cases r with
      | ok image => exact h.congr (iff_of_true trivial ⟨image, rfl⟩)
      | error cause => exact ⟨h.congr (iff_of_false id (by rintro ⟨image, ⟨⟩⟩)), cause, rfl⟩
    refine hread.andThen (fun image es s₁ h => emits_ok ?_) fun err es h => .inr h
    rw [List.append_nil]
    exact .inr h
  | reference image =>
    refine Emits.exceptThen (fun _ _ => emits_ok (.inl rfl)) fun err herr => ?_
    obtain ⟨⟨cause, rfl⟩, -⟩ := checkSize_error herr
    exact .inl ⟨rfl, cause, rfl⟩
  | noDiff => exact emits_ok (.inl rfl)

/-- What is reported when the old contents come first. -/
theorem oldContents_then {assumed : UInt8} {source : OldContents} {made : Plan → Prop}
    {f : Image × ExtentMode → Task σ OperationError Summary}
    (hf : ∀ old s', oldContents d chip assumed source s = (.ok old, s') →
      Emits (f old) s' fun r es => (∀ cause, r ≠ .error (.read cause)) ∧
        ∃ run check, es = run ++ check ++ completion r ∧ Reported made chip r [] run check) :
    Emits (oldContents d chip assumed source >>= f : Task σ OperationError Summary) s fun r es =>
      ∃ read run check, es = read ++ run ++ check ++ completion r ∧
        Reported made chip r read run check := by
  have hfirst : Ends (oldContents d chip assumed source) s fun r s₁ =>
      oldContents d chip assumed source s = (r, s₁) := rfl
  -- what comes next starts where the old contents were obtained
  refine (hfirst.and (oldContents_emits assumed source s)).andThen ?_ ?_
  · rintro old s₁ ⟨hold, read, hevents, hread⟩
    refine Ends.mono (hf old s₁ hold) ?_
    rintro r s₂ ⟨es, hes, hr, run, check, rfl, h⟩
    refine ⟨read ++ run ++ check ++ completion r, by rw [hes, hevents]; simp, read, run, check, rfl,
      { h with reading := ?_, unread := ?_ }⟩
    · exact hread.imp_right fun hread => hread.congr (iff_of_true hr trivial)
    · exact fun cause herr => absurd herr (hr cause)
  · rintro err s₁ ⟨-, es, hevents, ⟨rfl, cause, rfl⟩ | ⟨hread, cause, rfl⟩⟩
    · exact ⟨[], hevents, [], [], [], rfl, reported_unplanned cause⟩
    · exact ⟨es, hevents, es, [], [], by simp [completion], reported_unread hread⟩

/-- What follows on the device that the old contents left executes the plan of the operation. -/
theorem program_reported {assumed : UInt8} {s₁ t : Session σ}
    (hold : oldContents d chip assumed options.old s = (.ok (old, mode), s₁))
    (ht : t.device = s₁.device) :
    Emits (program d chip old new mode options) t fun r es =>
      (∀ cause, r ≠ .error (.read cause)) ∧
        ∃ run check, es = run ++ check ++ completion r ∧
          Reported (fun plan => plan.MadeIn d chip assumed new options s) chip r [] run check := by
  refine (program_emits t).mono fun r es h => ?_
  obtain ⟨hr, run, check, hes, hreported⟩ := h
  refine ⟨hr, run, check, hes, hreported.mono fun plan hplan => ?_⟩
  exact ⟨old, mode, s₁, t, hold, ht, hplan⟩

/-- **What an operation reports**, on any device, with any chip and images, whatever it comes to.
Where the chip is read, its size comes first, and then how many bytes have been read, in steps that
are not longer than a piece, up to the size if reading succeeds. Where a plan is executed, it is the
one that the operation made in its own session. Its units, which are those of the summary, and its
bytes come first, of which there are not more than on the chip, and then how many bytes are done,
block by block, which are all of them exactly if the execution succeeds. A verification is
announced. The summary comes last, exactly if the operation comes to it. -/
theorem operations_reported (d : Device σ) (chip : Chip) (new : Image) (options : WriteOptions)
    (s : Session σ) :
    (Emits (writeImage d chip new options) s fun r es => ∃ read run check,
      es = read ++ run ++ check ++ completion r ∧
        Reported (fun plan => plan.MadeIn d chip chip.erasedValue new options s) chip r
          read run check) ∧
    (Emits (eraseImage d chip options) s fun r es => ∃ read run check,
      es = read ++ run ++ check ++ completion r ∧
        Reported (fun plan => plan.MadeIn d chip (~~~chip.erasedValue)
          (Image.blank chip.totalSize chip.erasedValue) options s) chip r read run check) := by
  constructor
  · unfold writeImage
    refine Emits.exceptThen (fun _ _ => ?_) fun err herr => ?_
    · refine oldContents_then fun old s₁ hold => ?_
      dsimp only
      split
      · exact Ends.noteThen (program_reported hold rfl)
      · exact program_reported hold rfl
    · obtain ⟨⟨cause, rfl⟩, -⟩ := checkSize_error herr
      exact ⟨[], [], [], rfl, reported_unplanned cause⟩
  · unfold eraseImage
    exact oldContents_then fun old s₁ hold => Ends.noteThen (program_reported hold rfl)

end Reflash
