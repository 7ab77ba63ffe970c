import Reflash.Proofs.Emulator.Blocks

/-!
# The windows that are written

The search for windows goes on from the end of the last one until none is found
(`FoundFrom`), and finds exactly the maximal runs of chunks that differ (`MaximalRuns`). An
execution searches the copy that it changes on the way; what it changes lies behind, so it finds
the same windows.

* `foundFrom_windowsFrom`, `FoundFrom.unique`: the search ends, with one list of windows.
* `FoundFrom.maximalRuns`: what it finds.
* `writeWindows_found`: what an execution writes, and up to where if it fails.
* `windows_maximal`: all of this together.
-/

namespace Reflash

open Window

/-! ## The search -/

/-- Searched from an offset on, each time from the end of the window before, until there is none,
the windows are these. -/
inductive FoundFrom (cur want : Image) (g : Granularity) : ℕ → List Span → Prop
  | done {offset : ℕ} (hw : nextWindow? cur want g offset = none) : FoundFrom cur want g offset []
  | next {offset : ℕ} {w : Span} {ws : List Span} (hw : nextWindow? cur want g offset = some w)
      (hrest : FoundFrom cur want g w.stop ws) : FoundFrom cur want g offset (w :: ws)

variable {cur cur' want : Image} {g : Granularity} {offset n stride size i : ℕ} {p w : Span}
  {ws vs : List Span}

/-- Behind the images there is no window. -/
theorem nextWindow?_behind (h : min cur.size want.size ≤ offset) :
    nextWindow? cur want g offset = none := by
  cases hw : nextWindow? cur want g offset with
  | none => rfl
  | some w =>
    obtain ⟨hstart, hlen, hstop⟩ := nextWindow?_bounds hw
    unfold Span.stop at hstop
    omega

/-- **The search ends.** No window is empty, so there are not more than bytes. -/
theorem foundFrom_windowsFrom (hn : min cur.size want.size ≤ offset + n) :
    FoundFrom cur want g offset (windowsFrom cur want g n offset) := by
  induction n generalizing offset with
  | zero => exact .done (nextWindow?_behind hn)
  | succ n ih =>
    unfold windowsFrom
    cases hw : nextWindow? cur want g offset with
    | none => exact .done hw
    | some w =>
      obtain ⟨hstart, hlen, -⟩ := nextWindow?_bounds hw
      refine .next hw (ih ?_)
      unfold Span.stop
      omega

/-- There is only one list of windows. -/
theorem FoundFrom.unique (h : FoundFrom cur want g offset ws)
    (h' : FoundFrom cur want g offset vs) : ws = vs := by
  induction h generalizing vs with
  | done hw =>
    cases h' with
    | done _ => rfl
    | next hw' _ => rw [hw] at hw'; cases hw'
  | next hw _ ih =>
    cases h' with
    | done hw' => rw [hw] at hw'; cases hw'
    | next hw' hrest' =>
      rw [hw] at hw'
      cases hw'
      rw [ih hrest']

/-- **A change behind the search** does not matter to it. -/
theorem FoundFrom.congr (hsize : cur'.size = cur.size) (ho : offset ≤ min cur.size want.size)
    (hsame : ∀ i, offset ≤ i → cur'.byte i = cur.byte i) (h : FoundFrom cur want g offset ws) :
    FoundFrom cur' want g offset ws := by
  induction h with
  | done hw => exact .done ((nextWindow?_congr hsize ho hsame).trans hw)
  | next hw _ ih =>
    obtain ⟨hstart, hlen, hstop⟩ := nextWindow?_bounds hw
    refine .next ((nextWindow?_congr hsize ho hsame).trans hw) (ih hstop fun i hi => hsame i ?_)
    unfold Span.stop at hi
    omega

/-! ## Maximal runs -/

theorem FoundFrom.ascending (h : FoundFrom cur want g offset ws) :
    Ascending offset (min cur.size want.size) ws := by
  induction h with
  | done _ => exact ascending_nil
  | next hw _ ih =>
    obtain ⟨hstart, hlen, hstop⟩ := nextWindow?_bounds hw
    exact ih.cons hstart hlen hstop

/-- A run of chunks that starts at one that differs and cannot be extended. -/
structure Window.Run (cur want : Image) (stride size : ℕ) (w : Span) : Prop where
  start : Border stride size w.start
  stop : Border stride size w.stop
  first : chunkDiffers cur want stride size w.start = true
  behind : w.stop < size → chunkDiffers cur want stride size w.stop = false

theorem FoundFrom.runs (ho : Border g.stride (min cur.size want.size) offset)
    (h : FoundFrom cur want g offset ws) :
    ∀ w ∈ ws, Window.Run cur want g.stride (min cur.size want.size) w := by
  induction h with
  | done _ => exact fun w hw => absurd hw List.not_mem_nil
  | next hw _ ih =>
    obtain ⟨hstart, hfirst, hbehind⟩ := nextWindow?_maximal ho hw
    have hstop := (nextWindow?_eq_some ho hw).1
    exact List.forall_mem_cons.2 ⟨⟨hstart, hstop, hfirst, hbehind⟩, ih hstop⟩

/-- Between borders where all is equal, no chunk differs. -/
theorem not_differsAround {lo hi : ℕ} (hstride : 0 < stride) (hlo : Border stride size lo)
    (hhi : Border stride size hi) (hequal : ∀ j, lo ≤ j → j < hi → cur.byte j = want.byte j)
    (h1 : lo ≤ i) (h2 : i < hi) : ¬differsAround cur want stride size i := by
  intro hd
  obtain ⟨j, hj1, hj2, hne⟩ := chunkDiffers_iff.1 hd
  have hi : i < size := h2.trans_le hhi.1
  unfold Window.chunkEnd at hj2
  have hjsize : j < size := by omega
  have hchunk : i / stride = j / stride :=
    (Nat.div_eq_of_lt_le hj1 (by rw [Nat.add_mul, Nat.one_mul]; omega)).symm
  have hjlo : ¬j < lo := fun hlt => by
    have := (hlo.lt_iff hstride hi hjsize hchunk).2 hlt
    omega
  exact hne (hequal j (by omega) ((hhi.lt_iff hstride hi hjsize hchunk).1 h2))

/-- **An address is in a window** exactly if its chunk differs. -/
theorem FoundFrom.mem_iff (ho : Border g.stride (min cur.size want.size) offset)
    (h : FoundFrom cur want g offset ws) (h1 : offset ≤ i) (h2 : i < min cur.size want.size) :
    (∃ w ∈ ws, i ∈ w) ↔ differsAround cur want g.stride (min cur.size want.size) i := by
  induction h with
  | done hw =>
    have hnot := not_differsAround (i := i) g.stride_pos ho ⟨Nat.le_refl _, .inr rfl⟩
      (nextWindow?_eq_none ho hw) h1 h2
    exact iff_of_false (fun ⟨w, hw, _⟩ => List.not_mem_nil hw) hnot
  | @next offset w ws hw hrest ih =>
    obtain ⟨hstop, hequal, hdiffer⟩ := nextWindow?_eq_some ho hw
    have hstart := (nextWindow?_maximal ho hw).1
    have hbounds := hrest.ascending.bounds
    by_cases hbefore : i < w.start
    · have hnot := not_differsAround (i := i) g.stride_pos ho hstart hequal h1 hbefore
      refine iff_of_false ?_ hnot
      rintro ⟨v, hv, hi⟩
      -- every window starts at or behind the first one
      rcases List.mem_cons.1 hv with rfl | hv
      · exact absurd hi.1 (Nat.not_le.2 hbefore)
      · have hlater := (hbounds v hv).1
        have hle := hi.1
        unfold Span.stop at hlater
        omega
    · by_cases hin : i < w.stop
      · exact iff_of_true ⟨w, List.mem_cons_self, Nat.not_lt.1 hbefore, hin⟩
          (hdiffer i ⟨Nat.not_lt.1 hbefore, hin⟩)
      · rw [← ih hstop (Nat.not_lt.1 hin), List.exists_mem_cons_iff]
        exact or_iff_right fun hi => hin hi.2

/-- A chunk: what the images are cut into. -/
theorem mem_chunks (hp : p ∈ Span.pieces ⟨0, size⟩ stride) :
    p.start < size ∧ stride ∣ p.start ∧ p.stop = chunkEnd stride size p.start := by
  obtain ⟨k, hk, rfl⟩ := List.mem_map.1 hp
  have hlt := Span.mul_lt_of_lt_count (List.mem_range.1 hk)
  unfold Span.stop Window.chunkEnd
  dsimp only at hlt ⊢
  rw [Nat.zero_add]
  exact ⟨hlt, Nat.dvd_mul_left stride k, by omega⟩

theorem chunkDiffers_iff_slice (hcur : size ≤ cur.size) (hwant : size ≤ want.size)
    (hp : p ∈ Span.pieces ⟨0, size⟩ stride) : chunkDiffers cur want stride size p.start = true ↔
      Image.slice cur p ≠ Image.slice want p := by
  obtain ⟨-, -, hend⟩ := mem_chunks hp
  have hin : p.stop ≤ size := by rw [hend]; exact Nat.min_le_right _ _
  rw [Ne, ← Image.agree_iff_slice (hin.trans hcur) (hin.trans hwant), chunkDiffers_iff, ← hend]
  unfold Image.Agree
  push Not
  exact exists_congr fun i => by rw [← and_assoc]; rfl

/-- A chunk is in a run if its first address is. -/
theorem Window.Run.within_iff (hstride : 0 < stride) (hw : Window.Run cur want stride size w)
    (hp : p ∈ Span.pieces ⟨0, size⟩ stride) : p.Within w ↔ p.start ∈ w := by
  obtain ⟨hlt, hdvd, hend⟩ := mem_chunks hp
  refine ⟨fun h => h _ ⟨Nat.le_refl _, ?_⟩, fun hfirst a ha => ?_⟩
  · unfold Span.stop Window.chunkEnd at hend
    omega
  · have ha' : a < Window.chunkEnd stride size p.start := hend ▸ ha.2
    have hasize : a < size := ha'.trans_le (Nat.min_le_right _ _)
    have hborder : Border stride size p.start := ⟨hlt.le, .inl hdvd⟩
    refine ⟨hfirst.1.trans ha.1, (hw.stop.lt_iff hstride hlt hasize ?_).1 hfirst.2⟩
    rw [← hborder.chunk_start ha.1 ha', Nat.mul_div_cancel _ hstride]

/-- Of two runs, the first one stops at a chunk that does not differ, and the second one starts
behind it. -/
theorem Window.Run.exists_between {v : Span} (hstride : 0 < stride)
    (hv : Window.Run cur want stride size v) (hw : Window.Run cur want stride size w)
    (hvw : v.stop ≤ w.start) (hin : w.start < size) : ∃ p ∈ Span.pieces ⟨0, size⟩ stride,
      v.stop ≤ p.start ∧ p.stop ≤ w.start ∧ chunkDiffers cur want stride size p.start = false := by
  have hlt : v.stop < size := hvw.trans_lt hin
  have hdvd : stride ∣ v.stop := hv.stop.2.resolve_right hlt.ne
  have hp := chunk_mem_pieces hstride hlt
  rw [Nat.div_mul_cancel hdvd] at hp
  refine ⟨_, hp, Nat.le_refl _, ?_, hv.behind hlt⟩
  rw [(mem_chunks hp).2.2]
  by_contra hnot
  -- the chunk at which the second run starts would be the one that does not differ
  have hsame := hv.stop.chunk_start hvw (Nat.not_le.1 hnot)
  rw [Nat.div_mul_cancel (hw.start.2.resolve_right hin.ne)] at hsame
  have hfirst := hw.first
  rw [hsame, hv.behind hlt] at hfirst
  cases hfirst

/-- Windows that are exactly the maximal runs of chunks in which the images differ. A chunk is one
of the pieces of `stride` bytes, of which the last one may be shorter. -/
structure MaximalRuns (cur want : Image) (stride size : ℕ) (ws : List Span) : Prop where
  /-- They are not empty, inside the images, and one behind the other. -/
  ascending : Ascending 0 size ws
  aligned : ∀ w ∈ ws, stride ∣ w.start ∧ (stride ∣ w.stop ∨ w.stop = size)
  covers : ∀ p ∈ Span.pieces ⟨0, size⟩ stride,
    (∃ w ∈ ws, p.Within w) ↔ Image.slice cur p ≠ Image.slice want p
  /-- Between any two of them there is a chunk that does not differ. -/
  separated : ws.Pairwise fun v w => ∃ p ∈ Span.pieces ⟨0, size⟩ stride,
    v.stop ≤ p.start ∧ p.stop ≤ w.start ∧ Image.slice cur p = Image.slice want p

/-- **What a search from the start finds.** -/
theorem FoundFrom.maximalRuns (h : FoundFrom cur want g 0 ws) :
    MaximalRuns cur want g.stride (min cur.size want.size) ws := by
  have hascending := h.ascending
  have hruns := h.runs border_zero
  have hin : ∀ w ∈ ws, w.start < min cur.size want.size := by
    intro w hw
    obtain ⟨-, hlen, hstop⟩ := hascending.bounds w hw
    unfold Span.stop at hstop
    omega
  have hslice : ∀ {p}, p ∈ Span.pieces ⟨0, min cur.size want.size⟩ g.stride →
      (chunkDiffers cur want g.stride (min cur.size want.size) p.start = true ↔
        Image.slice cur p ≠ Image.slice want p) := fun hp =>
    chunkDiffers_iff_slice (Nat.min_le_left _ _) (Nat.min_le_right _ _) hp
  refine ⟨hascending, fun w hw => ?_, fun p hp => ?_, ?_⟩
  · exact ⟨(hruns w hw).start.2.resolve_right (hin w hw).ne, (hruns w hw).stop.2⟩
  · obtain ⟨hlt, hdvd, -⟩ := mem_chunks hp
    have hmem := h.mem_iff (i := p.start) border_zero (Nat.zero_le _) hlt
    unfold differsAround at hmem
    rw [Nat.div_mul_cancel hdvd, hslice hp] at hmem
    rw [← hmem]
    exact exists_congr fun w => and_congr_right fun hw =>
      (hruns w hw).within_iff g.stride_pos hp
  · refine hascending.sorted.imp_of_mem fun {v w} hv hw hvw => ?_
    obtain ⟨p, hp, h1, h2, hequal⟩ :=
      (hruns v hv).exists_between g.stride_pos (hruns w hw) hvw (hin w hw)
    refine ⟨p, hp, h1, h2, not_not.1 fun hne => ?_⟩
    rw [(hslice hp).2 hne] at hequal
    cases hequal

/-! ## What an execution writes -/

variable {σ α : Type} {d : Device σ} {chip : Chip} {policy : Policy} {b : Block} {erased : Bool}
  {ex : Execution (σ × List Command)} {cause : FlashError} {before : List Command}

/-- Why the write of a window fails: the device refuses it, or what is read back is not what was
written. -/
inductive WindowFails (d : Device σ) (chip : Chip) (policy : Policy) (b : Block) (want : Image)
    (erased : Bool) (w : Span) (cause : FlashError) : Prop
  | refused (dev : σ)
      (h : (d.write (b.start + w.start) (Image.slice want w) dev).result = .error cause)
  | unverified (hchecked : (policy.paranoid && !erased) = true) (s : Session σ)
      (h : (verifyRange d chip (Image.slice want w) (b.start + w.start) policy s).1 = .error cause)

/-- The windows of a block were written after `before`, all of them, which makes it what is wanted,
or up to one whose write failed. -/
def WindowsWritten (d : Device σ) (chip : Chip) (policy : Policy) (b : Block) (want : Image)
    (erased : Bool) (ws : List Span) (before : List Command) :
    Except ExecutionError α → Execution (σ × List Command) → Prop
  | .ok _, ex => ex.current = want ∧ ex.journal = before ++ ws.map (b.writing want)
  | .error e, ex => ∃ past w rest, ws = past ++ w :: rest ∧
      ex.journal = before ++ (past ++ [w]).map (b.writing want) ∧
      e = ⟨.write, b.start + w.start, w.len, e.cause⟩ ∧
      WindowFails d chip policy b want erased w e.cause

/-- One window. -/
theorem writeWindow_found :
    Ends (writeWindow d.recording chip policy b want erased w) ex fun r ex' =>
      ex'.journal = ex.journal ++ [b.writing want w] ∧ match r with
      | .ok _ => ex'.current = Image.overlay ex.current w.start (Image.slice want w)
      | .error e => e = ⟨.write, b.start + w.start, w.len, e.cause⟩ ∧
          WindowFails d chip policy b want erased w e.cause := by
  refine writeWindow_ends (R := fun s => s.device.2 = ex.journal ++ [b.writing want w]) ?_ ?_ ?_
  · refine ends_ask ?_
    cases hresult : (d.recording.write (b.start + w.start) (Image.slice want w)
      ex.session.device).result with
    | ok _ => rfl
    | error err => exact ⟨rfl, rfl, .refused ex.session.device.1 hresult⟩
  · intro hchecked s hs
    have hkept : Ends (verifyRange d.recording chip (Image.slice want w) (b.start + w.start) policy)
        s _ :=
      verifyRange_keeps (recording_readsKeep d (· = ex.journal ++ [b.writing want w])) s hs
    -- what is found does not depend on the journal
    have hmirror := verifyRange_recording d chip policy (Image.slice want w) (b.start + w.start) s
    have hsame : Ends (verifyRange d.recording chip (Image.slice want w) (b.start + w.start) policy)
        s fun r _ => (verifyRange d chip (Image.slice want w) (b.start + w.start) policy
          s.base).1 = r := congrArg Prod.fst hmirror
    refine (hkept.and hsame).mono fun r s' h' => ?_
    cases r with
    | ok _ => exact h'.1
    | error err => exact ⟨h'.1, rfl, .unverified hchecked s.base h'.2⟩
  · exact fun s hs => ⟨hs, rfl⟩

/-- **All windows**, whatever the device answers: the search in the copy that is changed on the way
finds the windows of the copy as it was. -/
theorem writeWindows_found (hsize : ex.current.size = want.size) (hn : want.size ≤ n) :
    Ends (writeWindows d.recording chip policy b want erased n 0) ex
      (WindowsWritten d chip policy b want erased
        (windows ex.current want chip.granularity) ex.journal) := by
  -- what was written so far, and what a search would find from here on
  refine Ends.mono (writeWindows_ends (J := fun offset ex' =>
    Matches chip.granularity ex'.current want offset ∧
      ∃ past rest, windows ex.current want chip.granularity = past ++ rest ∧
        ex'.journal = ex.journal ++ past.map (b.writing want) ∧
        FoundFrom ex'.current want chip.granularity offset rest)
    (Q := WindowsWritten d chip policy b want erased
      (windows ex.current want chip.granularity) ex.journal) ?_ ?_ (by omega) ?_) ?_
  · rintro offset ex' ⟨hmatches, past, rest, hws, hjournal, hfound⟩ hend
    have hnone : nextWindow? ex'.current want chip.granularity offset = none :=
      hend.elim id fun hle => nextWindow?_behind ((Nat.min_le_right _ _).trans hle)
    obtain rfl : rest = [] := hfound.unique (.done hnone)
    rw [List.append_nil] at hws
    exact ⟨hmatches.eq hend, hws ▸ hjournal⟩
  · rintro offset w ex' ⟨hmatches, past, rest, hws, hjournal, hfound⟩ hw
    cases hfound with
    | done hnone => rw [hw] at hnone; cases hnone
    | @next _ v rest hv hrest =>
      obtain rfl : w = v := Option.some.inj (hw.symm.trans hv)
      refine writeWindow_found.mono fun r ex'' ⟨hjournal', hresult⟩ => ?_
      have hwritten : ex''.journal = ex.journal ++ (past ++ [w]).map (b.writing want) := by
        rw [hjournal', hjournal, List.append_assoc, List.map_append]
        rfl
      cases r with
      | ok _ =>
        dsimp only at hresult ⊢
        obtain ⟨-, -, hstop⟩ := nextWindow?_bounds hw
        rw [hresult]
        refine ⟨hmatches.next hw, past ++ [w], rest, ?_, hwritten, ?_⟩
        · rw [hws, List.append_assoc]
          rfl
        · exact hrest.congr Image.size_overlay hstop fun i hi =>
            byte_behind (hstop.trans (Nat.min_le_right _ _)) hi
      | error err => exact ⟨past, w, rest, hws, hwritten, hresult⟩
  · refine ⟨matches_start _ hsize, [], _, rfl, (List.append_nil _).symm, ?_⟩
    exact foundFrom_windowsFrom (by omega)
  · intro r ex' h'
    cases r <;> exact h'

/-- Where no write of a window fails, all of them succeed. -/
theorem WindowsWritten.exists_ok {r : Except ExecutionError α}
    (h : WindowsWritten d chip policy b want erased ws before r ex)
    (hfails : ∀ w ∈ ws, ∀ cause, ¬WindowFails d chip policy b want erased w cause) :
    ∃ a, r = .ok a := by
  cases r with
  | ok a => exact ⟨a, rfl⟩
  | error e =>
    obtain ⟨past, w, rest, rfl, -, -, hfail⟩ := h
    exact absurd hfail (hfails w (List.mem_append_right past List.mem_cons_self) e.cause)

/-- **Windows are the maximal runs of chunks that differ.** The search for them ends, and an
execution that searches the copy it changes writes the same windows, which makes the copy what is
wanted, unless a write fails. The device may fail at any point and in any way, and the commands are
those that it is given, since the journal of them changes nothing. -/
theorem windows_maximal (chip : Chip) (hsize : cur.size = want.size) :
    (∀ ws, FoundFrom cur want chip.granularity 0 ws ↔ ws = windows cur want chip.granularity) ∧
    MaximalRuns cur want chip.granularity.stride want.size (windows cur want chip.granularity) ∧
    ∀ {σ : Type} (d : Device σ) (policy : Policy) (b : Block) (erased : Bool) (n : ℕ)
      (s : Session σ) (stats : ExecutionStats), want.size ≤ n →
      ∃ r ex', writeWindows d.recording chip policy b want erased n 0 ⟨s.journaled, cur, stats⟩ =
          (r, ex') ∧
        writeWindows d chip policy b want erased n 0 ⟨s, cur, stats⟩ = (r, ex'.base) ∧
        WindowsWritten d chip policy b want erased (windows cur want chip.granularity) [] r ex' ∧
        ((∀ w ∈ windows cur want chip.granularity, ∀ cause,
          ¬WindowFails d chip policy b want erased w cause) → ∃ written, r = .ok written) := by
  have hmin : min cur.size want.size = want.size := by omega
  have hfound : FoundFrom cur want chip.granularity 0 (windows cur want chip.granularity) :=
    foundFrom_windowsFrom (by omega)
  refine ⟨fun ws => ⟨fun h => h.unique hfound, fun h => h ▸ hfound⟩, hmin ▸ hfound.maximalRuns, ?_⟩
  intro σ d policy b erased n s stats hn
  have hrun : Ends (writeWindows d.recording chip policy b want erased n 0)
    ⟨s.journaled, cur, stats⟩ _ := writeWindows_found hsize hn
  exact ⟨_, _, rfl, writeWindows_recording d chip policy b want erased n 0
    ⟨s.journaled, cur, stats⟩, hrun, hrun.exists_ok⟩

/-- A device that accepts everything and forgets it. -/
def Device.accepting : Device Unit where
  read _ len _ := .quiet (.ok (Vector.replicate len 0)) ()
  write _ _ _ := .quiet (.ok ()) ()
  erase _ _ _ _ := .quiet (.ok ()) ()

/-- Two windows, with a byte between them that does not differ. -/
theorem windows_maximal_split :
    let cur : Image := #[1, 1, 1, 1, 1]
    let want : Image := #[2, 2, 1, 3, 1]
    MaximalRuns cur want 1 5 [⟨0, 2⟩, ⟨3, 1⟩] ∧
      ∃ (written : Bool) (ex : Execution (Unit × List Command)),
        writeWindows Device.accepting Chip.small {} ⟨16, 5, 0⟩ want false 5 0
          ⟨⟨(), #[], #[]⟩, cur, {}⟩ = (.ok written, ex.base) ∧
        ex.current = want ∧ ex.journal = [.write 16 #[2, 2], .write 19 #[3]] := by
  intro cur want
  have hws : windows cur want Chip.small.granularity = [⟨0, 2⟩, ⟨3, 1⟩] := by decide +kernel
  have hsize : cur.size = want.size := rfl
  obtain ⟨-, hruns, hwrites⟩ := windows_maximal Chip.small hsize
  rw [hws] at hruns hwrites
  refine ⟨hruns, ?_⟩
  obtain ⟨r, ex, -, hplain, hwritten, hok⟩ := hwrites Device.accepting {} ⟨16, 5, 0⟩ false 5
    ⟨(), #[], #[]⟩ {} (by decide)
  obtain ⟨written, rfl⟩ := hok fun w _ cause hfails => by
    cases hfails with
    | refused _ h => cases h
    | unverified hchecked _ _ => cases hchecked
  exact ⟨written, ex, hplain, hwritten.1, hwritten.2⟩

end Reflash
