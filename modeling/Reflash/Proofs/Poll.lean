import Reflash.Poll
import Reflash.Proofs.Recording

/-!
# Waiting for a chip

A wait goes through busy polls, with a delay after each of them, until a poll has another result
or the polls are used up. What it comes to and which calls the chip gets is decided by the number
of busy polls (`BusyChip.StopsAt`).

* `delayAt_eq`: the delays double, up to the maximum.
* `waitReady_ends`: where a wait stops, and how.
* `waitReady_schedule`: the outcome, the polls and the delays, for every chip.
-/

namespace Reflash

variable {σ : Type} {chip : BusyChip σ} {c : PollSchedule} {s : σ} {j k : ℕ} {err : FlashError}

/-! ## Delays -/

/-- What a chip is asked for while it is waited for. -/
inductive PollCall where
  | poll
  | delay (us : ℕ)
deriving DecidableEq, Repr

/-- A busy poll and the delay after it, if there is one. -/
def PollCall.round (delay : ℕ) : List PollCall :=
  if 0 < delay then [.poll, .delay delay] else [.poll]

theorem PollCall.count_round (delay : ℕ) : (round delay).count .poll = 1 := by
  unfold round
  split <;> simp

namespace PollSchedule

/-- The first delay does not exceed the maximum. -/
def Ordered (c : PollSchedule) : Prop := c.initialDelay ≤ c.maxDelay

instance (c : PollSchedule) : Decidable c.Ordered := inferInstanceAs (Decidable (_ ≤ _))

/-- The delay after the busy poll with this number. -/
def delayAt (c : PollSchedule) (k : ℕ) : ℕ := c.nextDelay^[k] c.initialDelay

theorem delayAt_succ : c.delayAt (k + 1) = c.nextDelay (c.delayAt k) :=
  Function.iterate_succ_apply' _ _ _

/-- **Delays double** until they reach the maximum. -/
theorem delayAt_eq (h : c.Ordered) (k : ℕ) :
    c.delayAt k = min (c.initialDelay * 2 ^ k) c.maxDelay := by
  induction k with
  | zero =>
    rw [pow_zero, mul_one, min_eq_left h]
    rfl
  | succ k ih =>
    have hdouble : c.initialDelay * 2 ^ (k + 1) = c.initialDelay * 2 ^ k * 2 := by
      rw [pow_succ, mul_assoc]
    rw [delayAt_succ, nextDelay, ih, hdouble]
    omega

/-- Doubling may saturate at any limit that the maximum does not exceed. -/
theorem saturated_eq {limit : ℕ} (hlimit : c.maxDelay ≤ limit) (k : ℕ) :
    min (min (c.delayAt k * 2) limit) c.maxDelay = c.delayAt (k + 1) := by
  rw [delayAt_succ, nextDelay, min_assoc, min_eq_right hlimit]

/-- The calls for this many busy polls. -/
def rounds (c : PollSchedule) (k : ℕ) : List PollCall :=
  (List.range k).flatMap fun j => PollCall.round (c.delayAt j)

theorem rounds_succ : c.rounds (k + 1) = c.rounds k ++ PollCall.round (c.delayAt k) := by
  simp [rounds, List.range_succ]

theorem count_rounds : (c.rounds k).count .poll = k := by
  simp [rounds, List.count_flatMap, PollCall.count_round, Function.comp_def]

end PollSchedule

/-! ## Polls -/

namespace BusyChip

/-- The chip after a delay, if there is one. -/
def rest (chip : BusyChip σ) (delay : ℕ) (s : σ) : σ := if 0 < delay then chip.delay delay s else s

/-- The chip before the poll with this number, when all polls before it were busy. -/
def before (chip : BusyChip σ) (c : PollSchedule) (s : σ) : ℕ → σ
  | 0 => s
  | k + 1 => chip.rest (c.delayAt k) (chip.isBusy (before chip c s k)).2

/-- The result of the poll with this number. -/
def answer (chip : BusyChip σ) (c : PollSchedule) (s : σ) (k : ℕ) : Except FlashError Bool :=
  (chip.isBusy (chip.before c s k)).1

/-- A wait has `k` busy polls. The next one is not busy, if there is one. -/
structure StopsAt (chip : BusyChip σ) (c : PollSchedule) (s : σ) (k : ℕ) : Prop where
  le : k ≤ c.maxPolls
  busy : ∀ j < k, chip.answer c s j = .ok true
  last : k < c.maxPolls → chip.answer c s k ≠ .ok true

theorem StopsAt.unique (hj : chip.StopsAt c s j) (hk : chip.StopsAt c s k) : j = k := by
  rcases lt_trichotomy j k with hlt | heq | hgt
  · exact absurd (hk.busy j hlt) (hj.last (hlt.trans_le hk.le))
  · exact heq
  · exact absurd (hj.busy k hgt) (hk.last (hgt.trans_le hj.le))

/-- What a wait with `k` busy polls comes to. -/
def ending (chip : BusyChip σ) (c : PollSchedule) (s : σ) (k : ℕ) : Reply σ Unit :=
  if k < c.maxPolls then
    match chip.isBusy (chip.before c s k) with
    | (.error err, s) => .quiet (.error err) s
    | (.ok _, s) => ⟨.ok (), s, if 0 < k then [.ready (k + 1)] else []⟩
  else .quiet (.error .timeout) (chip.before c s k)

/-- The end of a wait of which `k` polls were busy so far. -/
theorem pollFrom_ends (chip : BusyChip σ) (c : PollSchedule) (s : σ) {n k : ℕ}
    (hn : k + n = c.maxPolls) (hbusy : ∀ j < k, chip.answer c s j = .ok true) :
    ∃ j, chip.StopsAt c s j ∧
      pollFrom chip c n k (c.delayAt k) (chip.before c s k) = chip.ending c s j := by
  induction n generalizing k with
  | zero =>
    have hused : ¬k < c.maxPolls := by omega
    refine ⟨k, ⟨by omega, hbusy, fun hlt => absurd hlt hused⟩, ?_⟩
    rw [pollFrom, ending, if_neg hused]
  | succ n ih =>
    have hlt : k < c.maxPolls := by omega
    cases hpoll : chip.isBusy (chip.before c s k) with
    | mk r s' =>
      have hanswer : chip.answer c s k = r := congrArg Prod.fst hpoll
      -- the wait fails, is over, or goes on with the next poll
      match r, hanswer with
      | .error err, hanswer =>
        refine ⟨k, ⟨hlt.le, hbusy, fun _ => by rw [hanswer]; nofun⟩, ?_⟩
        rw [pollFrom, ending, if_pos hlt, hpoll]
      | .ok false, hanswer =>
        refine ⟨k, ⟨hlt.le, hbusy, fun _ => by rw [hanswer]; nofun⟩, ?_⟩
        rw [pollFrom, ending, if_pos hlt, hpoll]
      | .ok true, hanswer =>
        have hnext : chip.before c s (k + 1) = chip.rest (c.delayAt k) s' := by
          rw [before, hpoll]
        have hmore : ∀ j < k + 1, chip.answer c s j = .ok true := by
          intro j hj
          rcases Nat.lt_succ_iff_lt_or_eq.1 hj with hj | rfl
          · exact hbusy j hj
          · exact hanswer
        obtain ⟨j, hstops, hrest⟩ := ih (k := k + 1) (by omega) hmore
        refine ⟨j, hstops, ?_⟩
        rw [← hrest, hnext, PollSchedule.delayAt_succ, pollFrom, hpoll]
        rfl

/-- **A wait** stops at the first poll that is not busy, or after the last one. -/
theorem waitReady_ends (chip : BusyChip σ) (c : PollSchedule) (s : σ) :
    ∃ k, chip.StopsAt c s k ∧ waitReady chip c s = chip.ending c s k :=
  pollFrom_ends chip c s (Nat.zero_add _) nofun

theorem result_ending : (chip.ending c s k).result =
    if k < c.maxPolls then (chip.answer c s k).map fun _ => () else .error .timeout := by
  unfold ending answer
  split
  · split
    · rename_i herr
      rw [herr]
      rfl
    · rename_i hok
      rw [hok]
      rfl
  · rfl

theorem stopsAt_of_answer (hk : k < c.maxPolls) (hbusy : ∀ j < k, chip.answer c s j = .ok true)
    (hanswer : chip.answer c s k ≠ .ok true) : chip.StopsAt c s k :=
  ⟨hk.le, hbusy, fun _ => hanswer⟩

/-- A wait succeeds exactly if the first poll that is not busy finds the chip ready. -/
theorem waitReady_ok_iff : (waitReady chip c s).result = .ok () ↔
    ∃ k < c.maxPolls, (∀ j < k, chip.answer c s j = .ok true) ∧ chip.answer c s k = .ok false := by
  obtain ⟨k, hstops, hwait⟩ := waitReady_ends chip c s
  rw [hwait, result_ending]
  constructor
  · intro hok
    by_cases hk : k < c.maxPolls
    · have hlast := hstops.last hk
      rw [if_pos hk] at hok
      cases hanswer : chip.answer c s k with
      | error err =>
        rw [hanswer] at hok
        cases hok
      | ok busy =>
        rw [hanswer] at hlast
        have hready : busy = false := by simpa using hlast
        exact ⟨k, hk, hstops.busy, hready ▸ hanswer⟩
    · rw [if_neg hk] at hok
      cases hok
  · rintro ⟨j, hj, hbusy, hanswer⟩
    have hfirst : chip.StopsAt c s j := stopsAt_of_answer hj hbusy (by rw [hanswer]; nofun)
    obtain rfl := hfirst.unique hstops
    rw [if_pos hj, hanswer]
    rfl

/-- A wait fails with the error of the first poll that is not busy, and with a timeout if there is no
such poll. -/
theorem waitReady_error_iff : (waitReady chip c s).result = .error err ↔
    (∃ k < c.maxPolls, (∀ j < k, chip.answer c s j = .ok true) ∧
      chip.answer c s k = .error err) ∨
    (err = .timeout ∧ ∀ j < c.maxPolls, chip.answer c s j = .ok true) := by
  obtain ⟨k, hstops, hwait⟩ := waitReady_ends chip c s
  rw [hwait, result_ending]
  constructor
  · intro hfails
    by_cases hk : k < c.maxPolls
    · rw [if_pos hk] at hfails
      cases hanswer : chip.answer c s k with
      | error err' =>
        rw [hanswer] at hfails
        cases hfails
        exact .inl ⟨k, hk, hstops.busy, hanswer⟩
      | ok busy =>
        rw [hanswer] at hfails
        cases hfails
    · have hall : k = c.maxPolls := hstops.le.antisymm (Nat.not_lt.1 hk)
      rw [if_neg hk] at hfails
      cases hfails
      exact .inr ⟨rfl, hall ▸ hstops.busy⟩
  · rintro (⟨j, hj, hbusy, hanswer⟩ | ⟨rfl, hall⟩)
    · have hfirst : chip.StopsAt c s j := stopsAt_of_answer hj hbusy (by rw [hanswer]; nofun)
      obtain rfl := hfirst.unique hstops
      rw [if_pos hj, hanswer]
      rfl
    · have hused : ¬k < c.maxPolls := fun hk => hstops.last hk (hall k hk)
      rw [if_neg hused]

/-! ## Calls -/

/-- The chip with a journal of the calls that it gets. -/
def observed (chip : BusyChip σ) : BusyChip (σ × List PollCall) where
  isBusy s := ((chip.isBusy s.1).1, (chip.isBusy s.1).2, s.2 ++ [.poll])
  delay us s := (chip.delay us s.1, s.2 ++ [.delay us])

/-- Before each poll, the journal holds the rounds so far. -/
theorem before_observed (chip : BusyChip σ) (c : PollSchedule) (s : σ) (k : ℕ) :
    chip.observed.before c (s, []) k = (chip.before c s k, c.rounds k) := by
  induction k with
  | zero => rfl
  | succ k ih =>
    rw [before, ih, PollSchedule.rounds_succ, before]
    unfold rest PollCall.round
    split
    · simp [observed]
    · simp [observed]

theorem answer_observed : chip.observed.answer c (s, []) k = chip.answer c s k := by
  unfold answer
  rw [before_observed]
  rfl

theorem stopsAt_observed : chip.observed.StopsAt c (s, []) k ↔ chip.StopsAt c s k := by
  have hall : ∀ j, chip.observed.answer c (s, []) j = chip.answer c s j := fun _ => answer_observed
  constructor
  · intro h
    refine ⟨h.le, fun j hj => ?_, fun hk => ?_⟩
    · exact (hall j).symm.trans (h.busy j hj)
    · rw [← hall k]
      exact h.last hk
  · intro h
    refine ⟨h.le, fun j hj => ?_, fun hk => ?_⟩
    · exact (hall j).trans (h.busy j hj)
    · rw [hall k]
      exact h.last hk

/-- The journal has no effect. It holds in the end the rounds and the last poll, if there was one. -/
theorem ending_observed : chip.observed.ending c (s, []) k =
    (chip.ending c s k).along (c.rounds k ++ if k < c.maxPolls then [.poll] else []) := by
  unfold ending
  rw [before_observed]
  split
  · cases hpoll : chip.isBusy (chip.before c s k) with
    | mk r s' =>
      have hobserved : chip.observed.isBusy (chip.before c s k, c.rounds k) =
          (r, s', c.rounds k ++ [.poll]) := by
        unfold observed
        dsimp only
        rw [hpoll]
      rw [hobserved]
      cases r <;> rfl
  · rw [List.append_nil]
    rfl

/-- A chip whose polls have the results of a sequence, one after the other. -/
def scripted (results : ℕ → Except FlashError Bool) : BusyChip ℕ where
  isBusy k := (results k, k + 1)
  delay _ k := k

/-- Every sequence is what the polls of some chip come to. -/
theorem answer_scripted (results : ℕ → Except FlashError Bool) (k : ℕ) :
    (scripted results).answer c 0 k = results k := by
  have hbefore : ∀ k, (scripted results).before c 0 k = k := by
    intro k
    induction k with
    | zero => rfl
    | succ k ih =>
      rw [before, ih, rest]
      split <;> rfl
  unfold answer
  rw [hbefore k]
  rfl

end BusyChip

/-- **How a chip is waited for**, by a schedule whose first delay does not exceed its maximum. A chip
is given by what its polls come to, which may be any sequence of results. The wait succeeds exactly
if the first poll that is not busy finds the chip ready. It fails with the error of that poll if it
has one, and with a timeout if all polls that there may be are busy. The calls that the chip gets are
a poll and a delay for each time that it is busy, and the poll that ends the wait. The first delay is
doubled each time, up to the maximum, and there is no delay where that is zero. If doubling saturates
at a limit that the maximum does not exceed, this makes no difference. -/
theorem waitReady_schedule :
    (PollSchedule.pageProgram.Ordered ∧ PollSchedule.blockErase.Ordered ∧
      ∀ delay polls, (PollSchedule.fixed delay polls).Ordered) ∧
    (∀ (c : PollSchedule) (results : ℕ → Except FlashError Bool) (k : ℕ),
      (BusyChip.scripted results).answer c 0 k = results k) ∧
    ∀ {σ : Type} (chip : BusyChip σ) (c : PollSchedule) (s : σ), c.Ordered →
      ((waitReady chip c s).result = .ok () ↔ ∃ k < c.maxPolls,
        (∀ j < k, chip.answer c s j = .ok true) ∧ chip.answer c s k = .ok false) ∧
      (∀ err, (waitReady chip c s).result = .error err ↔
        (∃ k < c.maxPolls, (∀ j < k, chip.answer c s j = .ok true) ∧
          chip.answer c s k = .error err) ∨
        (err = .timeout ∧ ∀ j < c.maxPolls, chip.answer c s j = .ok true)) ∧
      (∃ k calls, chip.StopsAt c s k ∧
        waitReady chip.observed c (s, []) = (waitReady chip c s).along calls ∧
        calls.count .poll ≤ c.maxPolls ∧
        calls = ((List.range k).flatMap fun j =>
          PollCall.round (min (c.initialDelay * 2 ^ j) c.maxDelay)) ++
            if k < c.maxPolls then [.poll] else []) ∧
      ∀ limit, c.maxDelay ≤ limit → ∀ j,
        min (min (min (c.initialDelay * 2 ^ j) c.maxDelay * 2) limit) c.maxDelay =
          min (c.initialDelay * 2 ^ (j + 1)) c.maxDelay := by
  refine ⟨⟨by decide, by decide, fun delay _ => le_refl delay⟩, fun c results k =>
    BusyChip.answer_scripted results k, fun chip c s hordered => ⟨BusyChip.waitReady_ok_iff,
    fun err => BusyChip.waitReady_error_iff, ?_, fun limit hlimit j => ?_⟩⟩
  · obtain ⟨k, hstops, hwait⟩ := chip.waitReady_ends c s
    obtain ⟨k', hstops', hwait'⟩ := chip.observed.waitReady_ends c (s, [])
    obtain rfl := (BusyChip.stopsAt_observed.1 hstops').unique hstops
    refine ⟨k', c.rounds k' ++ if k' < c.maxPolls then [.poll] else [], hstops, ?_, ?_, ?_⟩
    · rw [hwait', hwait, BusyChip.ending_observed]
    · rw [List.count_append, PollSchedule.count_rounds]
      split
      · have hone : List.count PollCall.poll [.poll] = 1 := rfl
        omega
      · exact hstops.le
    · unfold PollSchedule.rounds
      simp only [PollSchedule.delayAt_eq hordered]
  · have hsaturated := PollSchedule.saturated_eq hlimit j
    rwa [PollSchedule.delayAt_eq hordered, PollSchedule.delayAt_eq hordered] at hsaturated

/-- A chip that is busy five times: the delays grow until they reach the maximum. -/
theorem waitReady_schedule_escalating :
    (⟨10, 50, 10⟩ : PollSchedule).Ordered ∧
    (waitReady (.scripted fun k => .ok (decide (k < 5))) ⟨10, 50, 10⟩ 0).result = .ok () ∧
    (waitReady (BusyChip.scripted fun k => .ok (decide (k < 5))).observed ⟨10, 50, 10⟩
      (0, [])).device.2 = [.poll, .delay 10, .poll, .delay 20, .poll, .delay 40, .poll, .delay 50,
        .poll, .delay 50, .poll] := by
  obtain ⟨-, hanswer, hall⟩ := waitReady_schedule
  obtain ⟨hok, -, ⟨k, calls, hstops, hwait, -, hcalls⟩, -⟩ :=
    hall (.scripted fun k => .ok (decide (k < 5))) ⟨10, 50, 10⟩ 0 (by decide)
  have hbusy : ∀ j < 5, (BusyChip.scripted fun k => .ok (decide (k < 5))).answer ⟨10, 50, 10⟩ 0 j =
      .ok true := by
    intro j hj
    rw [hanswer]
    simp [hj]
  have hready : (BusyChip.scripted fun k => .ok (decide (k < 5))).answer ⟨10, 50, 10⟩ 0 5 =
      .ok false := hanswer _ _ 5
  have hfive : k = 5 :=
    hstops.unique (BusyChip.stopsAt_of_answer (by decide) hbusy (by rw [hready]; nofun))
  refine ⟨by decide, hok.2 ⟨5, by decide, hbusy, hready⟩, ?_⟩
  rw [hwait]
  show calls = _
  rw [hcalls, hfive]
  decide

end Reflash
