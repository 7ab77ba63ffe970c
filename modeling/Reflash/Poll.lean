import Reflash.Session

/-!
# Waiting for a chip

A chip is busy while an erase or a write is in progress. Waiting means polling it
with growing delays.

* `waitReady`: polls until the chip is ready, fails, or the polls are used up.
-/

namespace Reflash

/-- A chip with states `σ` that can be asked whether it is busy. -/
structure BusyChip (σ : Type) where
  /-- Whether the last operation is still in progress. -/
  isBusy : σ → Except FlashError Bool × σ
  /-- Lets so many microseconds pass. -/
  delay : Nat → σ → σ

/-- When to poll. The delay doubles after every busy poll, up to a maximum. -/
structure PollSchedule where
  /-- The delay after the first busy poll, in microseconds. -/
  initialDelay : Nat
  maxDelay : Nat
  /-- Polls before giving up. -/
  maxPolls : Nat
deriving DecidableEq, Repr

namespace PollSchedule

/-- For a write of a page: some milliseconds. -/
def pageProgram : PollSchedule := ⟨10, 1000, 1000⟩

/-- For an erase: from tens of milliseconds to minutes. -/
def blockErase : PollSchedule := ⟨1000, 100000, 4000⟩

/-- Polls at a constant interval. -/
def fixed (delay maxPolls : Nat) : PollSchedule := ⟨delay, delay, maxPolls⟩

/-- The delay after the next busy poll. -/
def nextDelay (c : PollSchedule) (delay : Nat) : Nat := min (delay * 2) c.maxDelay

end PollSchedule

variable {σ : Type}

/-- Polls at most `n` more times, after `polls` busy polls and with `delay` as the next delay. -/
def pollFrom (chip : BusyChip σ) (c : PollSchedule) : Nat → Nat → Nat → σ → Reply σ Unit
  | 0, _, _, s => .quiet (.error .timeout) s
  | n + 1, polls, delay, s =>
    match chip.isBusy s with
    | (.error e, s) => .quiet (.error e) s
    | (.ok false, s) => ⟨.ok (), s, if 0 < polls then [.ready (polls + 1)] else []⟩
    | (.ok true, s) =>
      let s := if 0 < delay then chip.delay delay s else s
      pollFrom chip c n (polls + 1) (c.nextDelay delay) s

/-- Polls until the chip is ready. -/
def waitReady (chip : BusyChip σ) (c : PollSchedule) : σ → Reply σ Unit :=
  pollFrom chip c c.maxPolls 0 c.initialDelay

end Reflash
