import Reflash.Proofs.Execution.Commands
import Reflash.Proofs.Verification

/-!
# Counters and calls

The counters of an execution against the list of the calls that the device was given
(`Device.listing`). A write is counted if the device accepted it. An erase is counted
if the device accepted it and, in paranoid mode, could be read back. One that was
accepted and could not be read back because reading is denied (`unconfirmed`) is not
counted, although the execution goes on if that is ignored.

* `eraseBlock_accounts`, `writeWindow_accounts`: the commands.
* `processBlocks_accounts`: all blocks.
* `executePlan_counts`: every execution that succeeds, on any device.
-/

namespace Reflash

variable {σ α : Type} {d : Device σ} {chip : Chip} {policy : Policy} {new want : Image} {b : Block}
  {w t : Span} {erasing : Bool} {c : Command} {call : Call} {calls : List Call}
  {cs : List Command} {stats : ExecutionStats} {err : FlashError}
  {s : Session (σ × List Call)} {ex : Execution (σ × List Call)}

/-! ## Lists of calls -/

/-- The device with the list of its calls, the latest first. -/
def Device.listing (d : Device σ) : Device (σ × List Call) := d.observed List.cons

/-- The session with no calls so far. -/
def Session.unlisted (s : Session σ) : Session (σ × List Call) := ⟨(s.device, []), s.log, s.events⟩

/-- The calls so far, the latest first. -/
def Execution.listed (ex : Execution (σ × List Call)) : List Call := ex.session.device.2

namespace Call

/-- The device was asked to change something. -/
def isCommand : Call → Bool
  | read _ _ => false
  | command _ _ => true

/-- The command, if the device accepted it. -/
def accepted? : Call → Option Command
  | command c none => some c
  | _ => none

/-- A read that was refused because access is denied. -/
def isDeniedRead : Call → Bool
  | read _ (some err) => err.isAccessDenied
  | _ => false

end Call

/-- The accepted commands that erase, or those that write. -/
def accepted (erasing : Bool) (calls : List Call) : List Command :=
  (calls.filterMap Call.accepted?).filter fun c => c.isErase == erasing

/-- The erase that was accepted just now. -/
def latestErase? : List Call → Option Command
  | .command (.erase function address len) none :: _ => some (.erase function address len)
  | _ => none

/-- The accepted erases that could not be read back, since reading was denied right after them. -/
def unconfirmed : List Call → List Command
  | [] => []
  | call :: calls =>
    (if call.isDeniedRead then (latestErase? calls).toList else []) ++ unconfirmed calls

/-- How many bytes the commands are about. -/
def totalLength (cs : List Command) : ℕ := (cs.map fun c => c.span.len).sum

theorem accepted_read {refusal : Option FlashError} :
    accepted erasing (.read t refusal :: calls) = accepted erasing calls := rfl

theorem accepted_command : accepted erasing (.command c none :: calls) =
    (if c.isErase == erasing then [c] else []) ++ accepted erasing calls := by
  have hcons : (Call.command c none :: calls).filterMap Call.accepted? =
      c :: calls.filterMap Call.accepted? := List.filterMap_cons_some rfl
  unfold accepted
  rw [hcons, List.filter_cons]
  split <;> rfl

theorem totalLength_append {cs' : List Command} :
    totalLength (cs ++ cs') = totalLength cs + totalLength cs' := by
  unfold totalLength
  rw [List.map_append, List.sum_append]

theorem unconfirmed_of_readable (h : ∀ call ∈ calls, call.isDeniedRead = false) :
    unconfirmed calls = [] := by
  induction calls with
  | nil => rfl
  | cons call calls ih =>
    obtain ⟨hcall, hcalls⟩ := List.forall_mem_cons.1 h
    rw [unconfirmed, hcall, ih hcalls]
    rfl

/-! ## What is counted -/

/-- The counters tell what became of the calls, except that erases which could not be read back are
not counted. There are none of these unless the policy reads back and ignores denied access. -/
structure Tallied (policy : Policy) (stats : ExecutionStats) (calls : List Call) : Prop where
  erases : stats.erases + (unconfirmed calls).length = (accepted true calls).length
  bytesErased : stats.bytesErased + totalLength (unconfirmed calls) =
    totalLength (accepted true calls)
  writes : stats.writes = (accepted false calls).length
  bytesWritten : stats.bytesWritten = totalLength (accepted false calls)
  changed : stats.contentChanged = true ↔ ∃ call ∈ calls, call.isCommand = true
  confirmed : policy.paranoid = false ∨ policy.accessDenied = .abort → unconfirmed calls = []

namespace Tallied

/-- The blocks are counted apart. -/
theorem other (h : Tallied policy stats calls) (visited skipped denied : ℕ) :
    Tallied policy { stats with visited := visited, skipped := skipped, denied := denied } calls :=
  ⟨h.erases, h.bytesErased, h.writes, h.bytesWritten, h.changed, h.confirmed⟩

/-- A command that is refused is issued, but not counted. -/
theorem refused (h : Tallied policy stats calls) (c : Command) (err : FlashError) :
    Tallied policy { stats with contentChanged := true } (.command c (some err) :: calls) :=
  ⟨h.erases, h.bytesErased, h.writes, h.bytesWritten,
    iff_of_true rfl ⟨_, List.mem_cons_self, rfl⟩, h.confirmed⟩

/-- An erase that is accepted is counted. -/
theorem erase (h : Tallied policy stats calls) (function address len : ℕ) :
    Tallied policy
      { stats with
        contentChanged := true, erases := stats.erases + 1, bytesErased := stats.bytesErased + len }
      (.command (.erase function address len) none :: calls) := by
  refine ⟨?_, ?_, h.writes, h.bytesWritten, iff_of_true rfl ⟨_, List.mem_cons_self, rfl⟩,
    h.confirmed⟩
  · have := h.erases
    rw [accepted_command, List.length_append]
    show stats.erases + 1 + (unconfirmed calls).length = 1 + _
    omega
  · have := h.bytesErased
    rw [accepted_command, totalLength_append]
    show stats.bytesErased + len + totalLength (unconfirmed calls) = len + _
    omega

/-- A write that is accepted is counted. -/
theorem write (h : Tallied policy stats calls) (address : ℕ) (data : Image) :
    Tallied policy
      { stats with
        contentChanged := true, writes := stats.writes + 1
        bytesWritten := stats.bytesWritten + data.size }
      (.command (.write address data) none :: calls) := by
  refine ⟨h.erases, h.bytesErased, ?_, ?_, iff_of_true rfl ⟨_, List.mem_cons_self, rfl⟩,
    h.confirmed⟩
  · rw [accepted_command, List.length_append]
    show stats.writes + 1 = 1 + _
    rw [h.writes, Nat.add_comm]
  · rw [accepted_command, totalLength_append]
    show stats.bytesWritten + data.size = data.size + _
    rw [h.bytesWritten, Nat.add_comm]

/-- Reading counts nothing, unless it is denied right after an erase. -/
theorem read (h : Tallied policy stats calls) (t : Span) {refusal : Option FlashError}
    (hread : (Call.read t refusal).isDeniedRead = false ∨ latestErase? calls = none) :
    Tallied policy stats (.read t refusal :: calls) := by
  have hsame : unconfirmed (.read t refusal :: calls) = unconfirmed calls := by
    rw [unconfirmed]
    rcases hread with hread | hlatest
    · rw [hread]
      rfl
    · rw [hlatest, Option.toList_none, ite_self, List.nil_append]
  have hissued : (∃ call ∈ .read t refusal :: calls, call.isCommand = true) ↔
      ∃ call ∈ calls, call.isCommand = true := by
    rw [List.exists_mem_cons_iff]
    exact or_iff_right Bool.false_ne_true
  exact ⟨hsame ▸ h.erases, hsame ▸ h.bytesErased, h.writes, h.bytesWritten,
    h.changed.trans hissued.symm, hsame ▸ h.confirmed⟩

/-- **An erase that is accepted and cannot be read back** is not counted. -/
theorem unread (h : Tallied policy stats calls) (function address len : ℕ) (t : Span)
    (hdenied : err.isAccessDenied = true) (hparanoid : policy.paranoid = true)
    (hign : policy.accessDenied = .ignore) :
    Tallied policy { stats with contentChanged := true }
      (.read t (some err) :: .command (.erase function address len) none :: calls) := by
  have hunconfirmed : unconfirmed
      (.read t (some err) :: .command (.erase function address len) none :: calls) =
        .erase function address len :: unconfirmed calls := by
    rw [unconfirmed, Call.isDeniedRead, hdenied]
    rfl
  have hissued : ∃ call ∈ Call.read t (some err) :: .command (.erase function address len) none ::
      calls, call.isCommand = true :=
    ⟨_, List.mem_cons_of_mem _ List.mem_cons_self, rfl⟩
  refine ⟨?_, ?_, h.writes, h.bytesWritten, iff_of_true rfl hissued, ?_⟩
  · have := h.erases
    rw [hunconfirmed, accepted_read, accepted_command, List.length_append, List.length_cons]
    show stats.erases + _ = 1 + _
    omega
  · have := h.bytesErased
    rw [hunconfirmed, accepted_read, accepted_command, totalLength_append]
    show stats.bytesErased + totalLength ([.erase function address len] ++ unconfirmed calls) =
      len + _
    rw [totalLength_append]
    show stats.bytesErased + (len + _) = _
    omega
  · rintro (hno | hno)
    · rw [hparanoid] at hno
      cases hno
    · rw [hign] at hno
      cases hno

end Tallied

/-! ## Calls of the device -/

theorem ask_erase_listed (function address len : ℕ) :
    Ends (Device.ask (d.listing.erase function address len)) s fun r s' =>
      s'.device.2 = .command (.erase function address len) (refusal? r) :: s.device.2 :=
  ends_ask rfl

theorem ask_write_listed (address : ℕ) (data : Image) :
    Ends (Device.ask (d.listing.write address data)) s fun r s' =>
      s'.device.2 = .command (.write address data) (refusal? r) :: s.device.2 := ends_ask rfl

theorem ask_read_listed (address len : ℕ) :
    Ends (Device.ask (d.listing.read address len)) s fun r s' =>
      s'.device.2 = .read ⟨address, len⟩ (refusal? r) :: s.device.2 := ends_ask rfl

/-- The check of an erase reads once. It fails as that read does, or on a byte that is not
erased. -/
theorem checkErased_listed (t : Span) (erased : UInt8) :
    Ends (checkErased d.listing t erased) s fun r s' => match r with
      | .ok _ => s'.device.2 = .read t none :: s.device.2
      | .error err => err.isAccessDenied = true →
          s'.device.2 = .read t (some err) :: s.device.2 := by
  unfold checkErased
  refine (ask_read_listed t.start t.len).andThen (fun bytes s₁ h₁ => ?_) fun err s₁ h₁ _ => h₁
  dsimp only
  split
  · exact ends_pure h₁
  · refine Ends.noteThen (ends_throw fun hdenied => ?_)
    cases hdenied

/-- Reading back a write counts nothing. -/
theorem listing_readsKeep (d : Device σ) (policy : Policy) (stats : ExecutionStats) :
    d.listing.ReadsKeep fun dev => Tallied policy stats dev.2 ∧ latestErase? dev.2 = none :=
  ⟨fun _ _ _ h => ⟨h.1.read _ (.inr h.2), rfl⟩, fun _ _ _ _ h => h, fun _ _ _ h => h⟩

/-! ## Executions -/

/-- Unless the step ended with an error that is not ignored, the counters tell of the calls. -/
def Accounts (policy : Policy) (r : Except ExecutionError α) (ex : Execution (σ × List Call)) :
    Prop :=
  (∀ err, r = .error err → policy.ignores err.cause = true) → Tallied policy ex.stats ex.listed

theorem accounts_ok {a : α} (h : Tallied policy ex.stats ex.listed) : Accounts policy (.ok a) ex :=
  fun _ => h

theorem Accounts.tallied {a : α} (h : Accounts policy (.ok a) ex) :
    Tallied policy ex.stats ex.listed := h fun _ herr => by cases herr

/-- The error is passed on. -/
theorem Accounts.passOn {β : Type} {e : ExecutionError}
    (h : Accounts policy (.error e : Except ExecutionError α) ex) :
    Accounts policy (.error e : Except ExecutionError β) ex := by
  intro hign
  refine h fun err herr => ?_
  cases herr
  exact hign e rfl

/-- **The erase of a block.** -/
theorem eraseBlock_accounts (h : Tallied policy ex.stats ex.listed) :
    Ends (eraseBlock d.listing chip policy b) ex fun r ex' => Accounts policy r ex' := by
  have hcounted := h.erase b.function b.start b.size
  refine eraseBlock_checked
    (R := fun s => s.device.2 = .command (.erase b.function b.start b.size) none :: ex.listed)
    (T := fun s => Tallied policy
      { ex.stats with
        contentChanged := true, erases := ex.stats.erases + 1
        bytesErased := ex.stats.bytesErased + b.size } s.device.2) ?_ ?_ ?_ ?_
  · refine (ask_erase_listed b.function b.start b.size).mono fun r s hs => ?_
    cases r with
    | ok _ => exact hs
    | error err =>
      intro _
      show Tallied policy { ex.stats with contentChanged := true } s.device.2
      rw [hs]
      exact h.refused _ err
  · intro hparanoid s hs
    refine (checkErased_listed b.span chip.erasedValue).mono fun r s' hs' => ?_
    cases r with
    | ok _ =>
      dsimp only at hs' ⊢
      rw [hs', hs]
      exact hcounted.read b.span (.inl rfl)
    | error err =>
      intro hign
      have hign : policy.ignores err = true := hign _ rfl
      -- only a denied read is ignored
      have hdenied : err.isAccessDenied = true := (Bool.and_eq_true_iff.1 hign).1
      show Tallied policy { ex.stats with contentChanged := true } s'.device.2
      rw [hs' hdenied, hs]
      exact h.unread _ _ _ _ hdenied hparanoid ((Policy.ignores_denied hdenied).1 hign)
  · intro _ s hs
    rw [hs]
    exact hcounted
  · exact fun s hs => accounts_ok hs

/-- **The write of a window.** -/
theorem writeWindow_accounts {erased : Bool} (hw : w.stop ≤ want.size)
    (h : Tallied policy ex.stats ex.listed) :
    Ends (writeWindow d.listing chip policy b want erased w) ex fun r ex' =>
      Accounts policy r ex' := by
  have hlen : (Image.slice want w).size = w.len := Image.size_slice hw
  have hcounted := h.write (b.start + w.start) (Image.slice want w)
  rw [hlen] at hcounted
  refine writeWindow_ends
    (R := fun s => Tallied policy
      { ex.stats with
        contentChanged := true, writes := ex.stats.writes + 1
        bytesWritten := ex.stats.bytesWritten + w.len } s.device.2 ∧
      latestErase? s.device.2 = none) ?_ ?_ ?_
  · refine (ask_write_listed (b.start + w.start) (Image.slice want w)).mono fun r s hs => ?_
    cases r with
    | ok _ =>
      dsimp only
      rw [hs]
      exact ⟨hcounted, rfl⟩
    | error err =>
      intro _
      show Tallied policy { ex.stats with contentChanged := true } s.device.2
      rw [hs]
      exact h.refused _ err
  · intro _ s hs
    have hkeeps : Ends (verifyRange d.listing chip (Image.slice want w) (b.start + w.start) policy)
      s _ := verifyRange_keeps (listing_readsKeep d policy _) s hs
    refine (hkeeps.and (verifyRange_unignored d.listing chip s)).mono ?_
    rintro (err | _) s' ⟨hs', hkept⟩
    · -- an error of verification is never ignored
      intro hign
      have hign : policy.ignores err = true := hign _ rfl
      rw [hkept err rfl] at hign
      cases hign
    · exact hs'
  · exact fun s hs => accounts_ok hs.1

theorem writeWindows_accounts {erased : Bool} (h : Tallied policy ex.stats ex.listed) :
    Ends (writeWindows d.listing chip policy b want erased want.size 0) ex fun r ex' =>
      Accounts policy r ex' := by
  refine (writeWindows_ends (J := fun _ ex => Tallied policy ex.stats ex.listed)
    (Q := fun r ex => Accounts policy r ex) (fun _ _ h _ => accounts_ok h) ?_
    (Nat.zero_add _).ge h).mono ?_
  · intro offset w ex h hw
    have hstop : w.stop ≤ want.size := (nextWindow?_bounds hw).2.2.trans (Nat.min_le_right _ _)
    refine (writeWindow_accounts hstop h).mono fun r ex₁ h₁ => ?_
    cases r with
    | ok _ => exact h₁.tallied
    | error err => exact h₁
  · rintro (err | _) ex₁ h₁
    · exact h₁.passOn
    · exact accounts_ok h₁.tallied

/-- **One block.** -/
theorem processBlock_accounts (h : Tallied policy ex.stats ex.listed) :
    Ends (processBlock d.listing chip policy b want) ex fun r ex' => Accounts policy r ex' := by
  refine processBlock_ends (P := fun _ ex' => Tallied policy ex'.stats ex'.listed) (fun _ => ?_)
    (fun _ => h) fun erased ex₁ h₁ => ?_
  · refine (eraseBlock_accounts h).mono fun r ex₁ h₁ => ?_
    cases r with
    | ok _ => exact h₁.tallied
    | error e => exact h₁.passOn
  · refine (writeWindows_accounts h₁).mono fun r ex₂ h₂ => ?_
    cases r with
    | ok _ => exact accounts_ok h₂.tallied
    | error e => exact h₂.passOn

/-- **All blocks**, each of which is counted as visited. -/
theorem processBlocks_accounts {bs : List Block} {done : ℕ}
    (h : Tallied policy ex.stats ex.listed) :
    Ends (processBlocks d.listing chip policy new bs done) ex fun r ex' =>
      ∀ u, r = .ok u → Tallied policy ex'.stats ex'.listed ∧
        ex'.stats.visited = ex.stats.visited + bs.length := by
  refine processBlocks_ends
    (J := fun rest (dev : σ × List Call) _ stats => Tallied policy stats dev.2 ∧
      stats.visited + rest.length = ex.stats.visited + bs.length)
    (Q := fun r (dev : σ × List Call) _ stats => ∀ u, r = .ok u → Tallied policy stats dev.2 ∧
      stats.visited = ex.stats.visited + bs.length) ?_ ?_ ⟨h, rfl⟩
  · rintro dev _ stats ⟨h', hvisited⟩ _ _
    exact ⟨h', hvisited⟩
  · rintro b rest ex₁ ⟨h₁, hvisited⟩
    have hblock : Ends (processBlock d.listing chip policy b (Image.slice new b.span))
      (ex₁.enter b) _ := processBlock_accounts (h₁.other _ _ _)
    refine (hblock.and (processBlock_keeps (keeps_trivial d.listing) trivial)).mono ?_
    rintro r ex₂ ⟨haccounts, hkeeps⟩
    have hnext : ex₂.stats.visited + rest.length = ex.stats.visited + bs.length := by
      have hsame : ex₂.stats.visited = ex₁.stats.visited + 1 := by
        rcases hkeeps with ⟨rfl, -⟩ | ⟨hadvances, -⟩
        · rfl
        · exact hadvances.visited
      rw [List.length_cons] at hvisited
      omega
    refine afterBlock_of (fun hign skipped denied => ?_) fun err _ _ u hu => ?_
    · exact ⟨(haccounts hign).other _ skipped denied, hnext⟩
    · cases hu

/-- The blocks of a plan are those of its units. -/
theorem length_blocks (plan : Plan) :
    plan.blocks.length = (plan.units.map ProcessingUnit.blockCount).sum := by
  unfold Plan.blocks ProcessingUnit.blocks
  rw [List.length_flatMap]
  simp

/-- **The counters of an execution that succeeds**, whatever the device does, for every chip, plan
and policy. All blocks are visited, and a change is recorded exactly if an erase or a write was
issued. The writes and their bytes are those that the device accepted. The erases and their bytes
are those that it accepted without the ones that could not be read back. So they are all of them
unless the policy reads back, ignores denied access, and was denied a read. The calls are those that
the device is given, since the list of them changes nothing. -/
theorem executePlan_counts (d : Device σ) (chip : Chip) (plan : Plan) (current : Image)
    (policy : Policy) (s : Session σ) :
    ∃ r s' calls, executePlan d.listing chip plan current policy s.unlisted = (r, s') ∧
      executePlan d chip plan current policy s = (r, s'.base) ∧ s'.device.2 = calls ∧
      ∀ stats, r.1 = .ok stats →
        stats.visited = (plan.units.map ProcessingUnit.blockCount).sum ∧
        (stats.contentChanged = true ↔ ∃ call ∈ calls, call.isCommand = true) ∧
        stats.writes = (accepted false calls).length ∧
        stats.bytesWritten = totalLength (accepted false calls) ∧
        stats.erases + (unconfirmed calls).length = (accepted true calls).length ∧
        stats.bytesErased + totalLength (unconfirmed calls) = totalLength (accepted true calls) ∧
        (policy.paranoid = false ∨ policy.accessDenied = .abort ∨
            (∀ call ∈ calls, call.isDeniedRead = false) →
          stats.erases = (accepted true calls).length ∧
          stats.bytesErased = totalLength (accepted true calls)) := by
  have hstart : Tallied policy {} [] :=
    ⟨rfl, rfl, rfl, rfl, iff_of_false Bool.false_ne_true (by simp), fun _ => rfl⟩
  have hrun : Ends (executePlan d.listing chip plan current policy) s.unlisted fun r s' =>
      ∀ stats, r.1 = .ok stats → Tallied policy stats s'.device.2 ∧
        stats.visited = plan.blocks.length := by
    by_cases hsize : current.size = plan.new.size
    · refine executePlan_ends (Q := fun r _ (dev : σ × List Call) => ∀ stats, r = .ok stats →
        Tallied policy stats dev.2 ∧ stats.visited = plan.blocks.length) hsize fun t ht => ?_
      have hbegin : Tallied policy {} t.device.2 := by
        rw [ht]
        exact hstart
      have hblocks : Ends (processBlocks d.listing chip policy plan.new plan.blocks 0)
        ⟨t, current, {}⟩ _ := processBlocks_accounts hbegin
      refine hblocks.mono fun r ex h => ?_
      cases r with
      | error err => exact fun stats hstats => by cases hstats
      | ok u =>
        rintro stats ⟨⟩
        obtain ⟨htallied, hvisited⟩ := h u rfl
        exact ⟨htallied, hvisited.trans (Nat.zero_add _)⟩
    · unfold executePlan
      rw [if_pos hsize]
      exact fun stats hstats => by cases hstats
  refine ⟨_, _, _, rfl, executePlan_observed d _ chip policy plan current s.unlisted, rfl,
    fun stats hstats => ?_⟩
  obtain ⟨h, hvisited⟩ := hrun stats hstats
  refine ⟨hvisited.trans (length_blocks plan), h.changed, h.writes, h.bytesWritten, h.erases,
    h.bytesErased, fun hall => ?_⟩
  have hnone : unconfirmed (executePlan d.listing chip plan current policy s.unlisted).2.device.2 =
      [] := by
    rcases hall with hno | hno | hread
    · exact h.confirmed (.inl hno)
    · exact h.confirmed (.inr hno)
    · exact unconfirmed_of_readable hread
  have herases := h.erases
  have hbytes := h.bytesErased
  rw [hnone] at herases hbytes
  exact ⟨herases, hbytes⟩

/-- Of two blocks, the first one is erased and written, and the erase of the second one is refused:
one erase and one write are counted. -/
theorem executePlan_counts_flaky : ∃ stats current s' calls,
    executePlan Device.flaky.listing Chip.small
      ⟨Image.blank 8 0, Image.blank 8 7, [⟨4, 0, 2, 0, 0⟩]⟩ (Image.blank 8 0) {}
      ⟨(0, []), #[], #[]⟩ = ((.ok stats, current), s') ∧ s'.device.2 = calls ∧
    calls.length = 3 ∧ stats.visited = 2 ∧ stats.contentChanged = true ∧
    accepted true calls = [.erase 0 0 4] ∧ stats.erases = 1 ∧ stats.bytesErased = 4 ∧
    stats.writes = (accepted false calls).length := by
  have hstats : (executePlan Device.flaky.listing Chip.small
      ⟨Image.blank 8 0, Image.blank 8 7, [⟨4, 0, 2, 0, 0⟩]⟩ (Image.blank 8 0) {}
      ⟨(0, []), #[], #[]⟩).1.1 = .ok ⟨2, 0, 1, 1, 4, 1, 4, true⟩ := by decide +kernel
  have hcalls : (executePlan Device.flaky.listing Chip.small
      ⟨Image.blank 8 0, Image.blank 8 7, [⟨4, 0, 2, 0, 0⟩]⟩ (Image.blank 8 0) {}
      ⟨(0, []), #[], #[]⟩).2.device.2 = [.command (.erase 0 4 4) (some (.accessDenied 4)),
        .command (.write 0 (Image.blank 4 7)) none, .command (.erase 0 0 4) none] := by
    decide +kernel
  obtain ⟨r, s', calls, hrun, -, hlist, hcounts⟩ := executePlan_counts Device.flaky Chip.small
    ⟨Image.blank 8 0, Image.blank 8 7, [⟨4, 0, 2, 0, 0⟩]⟩ (Image.blank 8 0) {} ⟨0, #[], #[]⟩
  have hrun : executePlan Device.flaky.listing Chip.small
      ⟨Image.blank 8 0, Image.blank 8 7, [⟨4, 0, 2, 0, 0⟩]⟩ (Image.blank 8 0) {}
      ⟨(0, []), #[], #[]⟩ = (r, s') := hrun
  rw [hrun] at hstats hcalls
  obtain ⟨r, current⟩ := r
  cases hstats
  obtain ⟨hvisited, hchanged, hwrites, -, -, -, hall⟩ := hcounts _ rfl
  obtain ⟨herases, hbytes⟩ := hall (.inl rfl)
  have hlist : calls = _ := hlist.symm.trans hcalls
  subst hlist
  exact ⟨_, current, s', _, hrun, hcalls, rfl, hvisited, hchanged.2 ⟨_, List.mem_cons_self, rfl⟩,
    rfl, herases, hbytes, hwrites⟩

/-- **An erase that is not counted**: in paranoid mode the only block of the plan is erased, the
check of the erase may not read it, and the block is given up. The device accepted an erase of two
bytes, and the counters tell of none. -/
theorem executePlan_counts_unread :
    (Plan.prepare Chip.small (Image.blank 8 0) #[1, 0, 0, 0, 0, 0, 0, 0] 8 EraserFilter.all
      (⟨(), #[], #[]⟩ : Session Unit)).1 =
        .ok ⟨Image.blank 8 0, #[1, 0, 0, 0, 0, 0, 0, 0], [⟨2, 0, 1, 1, 0⟩]⟩ ∧
    (executePlan (Device.veiled ⟨0, 2⟩).listing Chip.small
      ⟨Image.blank 8 0, #[1, 0, 0, 0, 0, 0, 0, 0], [⟨2, 0, 1, 1, 0⟩]⟩ (Image.blank 8 0)
      { paranoid := true } ⟨(Image.blank 8 0, []), #[], #[]⟩).1.1 =
        .ok ⟨1, 0, 1, 0, 0, 0, 0, true⟩ ∧
    (executePlan (Device.veiled ⟨0, 2⟩).listing Chip.small
      ⟨Image.blank 8 0, #[1, 0, 0, 0, 0, 0, 0, 0], [⟨2, 0, 1, 1, 0⟩]⟩ (Image.blank 8 0)
      { paranoid := true } ⟨(Image.blank 8 0, []), #[], #[]⟩).2.device.2 =
        [.read ⟨0, 2⟩ (some (.accessDenied 0)), .command (.erase 1 0 2) none] := by
  refine ⟨rfl, ?_, ?_⟩
  all_goals decide +kernel

end Reflash
