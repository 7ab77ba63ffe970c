import Reflash.Proofs.Chip
import Reflash.Proofs.Execution.Changes
import Reflash.Proofs.Plan.Blocks
import Reflash.Proofs.Recording

/-!
# The commands of an execution

Whatever the device answers, an execution asks it for at most one erase of a block
and then for writes inside that block, and never comes back to it (`Block.Served`).

* `processBlock_commands`: the commands for one block, from its erase and its windows.
* `processBlocks_commands`: block after block, also if the execution ends before the last one.
* `executePlan_commands`: with a plan, no byte is in the range of two erases or of two writes.
-/

namespace Reflash

variable {σ : Type} {d : Device σ} {chip : Chip} {policy : Policy} {new want : Image} {b : Block}
  {ex : Execution (σ × List Command)} {lo hi : ℕ} {w : Span} {ws : List Span}
  {c : Command} {cs : List Command} {bs : List Block} {css : List (List Command)}

/-- Spans between `lo` and `hi`, none of them empty, one behind the other. -/
structure Ascending (lo hi : ℕ) (ws : List Span) : Prop where
  bounds : ∀ w ∈ ws, lo ≤ w.start ∧ 0 < w.len ∧ w.stop ≤ hi
  sorted : ws.Pairwise fun v w => v.stop ≤ w.start

/-- The erase of the block. -/
def Block.command (b : Block) : Command := .erase b.function b.start b.size

/-- The write of what an image holds in a span. -/
def Command.storing (m : Image) (w : Span) : Command := .write w.start (Image.slice m w)

/-- At most one erase of the block, and then writes of what `new` holds in parts of it. -/
def Block.Served (new : Image) (b : Block) (cs : List Command) : Prop :=
  ∃ (erases : List Command) (ws : List Span), cs = erases ++ ws.map (Command.storing new) ∧
    (erases = [] ∨ erases = [b.command]) ∧ Ascending b.start (b.start + b.size) ws

/-- Commands for block after block. -/
def AllServed (new : Image) (bs : List Block) (cs : List Command) : Prop :=
  ∃ css, List.Forall₂ (Block.Served new) bs css ∧ cs = css.flatten

/-- The commands do not do the same to any address. -/
def Command.Apart (c c' : Command) : Prop := c.isErase = c'.isErase → ∀ a ∈ c.span, a ∉ c'.span

theorem ascending_nil : Ascending lo hi [] := ⟨by simp, List.Pairwise.nil⟩

theorem Ascending.cons (hlo : lo ≤ w.start) (hlen : 0 < w.len) (hhi : w.stop ≤ hi)
    (h : Ascending w.stop hi ws) : Ascending lo hi (w :: ws) := by
  refine ⟨fun v hv => ?_, List.pairwise_cons.2 ⟨fun v hv => (h.bounds v hv).1, h.sorted⟩⟩
  rcases List.mem_cons.1 hv with rfl | hv
  · exact ⟨hlo, hlen, hhi⟩
  · obtain ⟨h1, h2⟩ := h.bounds v hv
    unfold Span.stop at h1
    exact ⟨by omega, h2⟩

/-- Spans inside a block, which is itself somewhere. -/
theorem Ascending.shift {n : ℕ} (h : Ascending 0 hi ws) (hn : hi ≤ n) (a : ℕ) :
    Ascending a (a + n) (ws.map fun w => ⟨a + w.start, w.len⟩) := by
  refine ⟨fun v hv => ?_, List.pairwise_map.2 (h.sorted.imp fun hvw => ?_)⟩
  · obtain ⟨w, hw, rfl⟩ := List.mem_map.1 hv
    obtain ⟨-, h1, h2⟩ := h.bounds w hw
    unfold Span.stop at h2 ⊢
    dsimp only
    omega
  · unfold Span.stop at hvw ⊢
    dsimp only
    omega

theorem AllServed.append {bs' : List Block} {cs' : List Command} (h : AllServed new bs cs)
    (h' : AllServed new bs' cs') : AllServed new (bs ++ bs') (cs ++ cs') := by
  obtain ⟨css, hserved, rfl⟩ := h
  obtain ⟨css', hserved', rfl⟩ := h'
  exact ⟨css ++ css', List.rel_append hserved hserved', List.flatten_append.symm⟩

theorem Block.Served.all (h : b.Served new cs) : AllServed new [b] cs :=
  ⟨[cs], .cons h .nil, List.flatten_singleton.symm⟩

/-- Blocks can do without commands. -/
theorem allServed_nil (new : Image) (bs : List Block) : AllServed new bs [] := by
  refine ⟨bs.map fun _ => [], ?_, ?_⟩
  · exact List.forall₂_map_right_iff.2
      (List.forall₂_same.2 fun _ _ => ⟨[], [], rfl, .inl rfl, ascending_nil⟩)
  · rw [List.map_const', List.flatten_replicate_nil]

/-! ## What an execution asks for -/

theorem eraseBlock_commands :
    Ends (eraseBlock d.recording chip policy b) ex fun _ ex' =>
      ex'.journal = ex.journal ++ [b.command] := by
  have hask : Ends (Device.ask (d.recording.erase b.function b.start b.size)) ex.session
      fun _ s => s.device.2 = ex.journal ++ [b.command] := ends_ask rfl
  refine eraseBlock_ends (R := fun s => s.device.2 = ex.journal ++ [b.command]) ?_ ?_ ?_
  · refine hask.mono fun r s h => ?_
    cases r <;> exact h
  · intro _ s hs
    have hcheck := checkErased_keeps (recording_readsKeep d (· = _)) b.span chip.erasedValue s hs
    refine hcheck.mono fun r s' hs' => ?_
    cases r <;> exact hs'
  · exact fun s hs => hs

theorem writeWindow_commands {erased : Bool} :
    Ends (writeWindow d.recording chip policy b want erased w) ex fun _ ex' =>
      ex'.journal = ex.journal ++ [.write (b.start + w.start) (Image.slice want w)] := by
  have hask : Ends (Device.ask (d.recording.write (b.start + w.start) (Image.slice want w)))
      ex.session fun _ s => s.device.2 =
        ex.journal ++ [.write (b.start + w.start) (Image.slice want w)] := ends_ask rfl
  refine writeWindow_ends (R := fun s => s.device.2 =
    ex.journal ++ [.write (b.start + w.start) (Image.slice want w)]) ?_ ?_ ?_
  · refine hask.mono fun r s h => ?_
    cases r <;> exact h
  · intro _ s hs
    refine (verifyRange_keeps (recording_readsKeep d (· = _)) s hs).mono fun r s' hs' => ?_
    cases r <;> exact hs'
  · exact fun s hs => hs

/-- **The writes of a block** store windows, one behind the other, whatever becomes of each. -/
theorem writeWindows_commands {erased : Bool} {n offset : ℕ} :
    Ends (writeWindows d.recording chip policy b want erased n offset) ex fun _ ex' =>
      ∃ ws, Ascending offset want.size ws ∧ ex'.journal = ex.journal ++
        ws.map fun w => .write (b.start + w.start) (Image.slice want w) := by
  induction n generalizing ex offset with
  | zero => exact ends_pure ⟨[], ascending_nil, (List.append_nil _).symm⟩
  | succ n ih =>
    unfold writeWindows
    refine Ends.getThen ?_
    split
    · exact ends_pure ⟨[], ascending_nil, (List.append_nil _).symm⟩
    · rename_i w hw
      obtain ⟨hstart, hlen, hstop⟩ := nextWindow?_bounds hw
      have hcons : ∀ {ws}, Ascending w.stop want.size ws → Ascending offset want.size (w :: ws) :=
        Ascending.cons hstart hlen (hstop.trans (Nat.min_le_right _ _))
      refine writeWindow_commands.andThen (fun _ ex₁ h₁ => ?_)
        fun _ ex₁ h₁ => ⟨[w], hcons ascending_nil, h₁⟩
      -- the next windows come behind this one, and so do their writes in the journal
      have hrest : Ends (writeWindows d.recording chip policy b want erased n w.stop) ex₁
          fun _ ex₂ => ∃ ws, Ascending offset want.size ws ∧ ex₂.journal = ex.journal ++
            ws.map fun w => .write (b.start + w.start) (Image.slice want w) := by
        refine ih.mono ?_
        rintro _ ex₂ ⟨ws, hws, hjournal⟩
        refine ⟨w :: ws, hcons hws, ?_⟩
        rw [hjournal, h₁, List.append_assoc]
        rfl
      exact hrest.discardThen (fun _ _ h => ends_pure h) fun _ _ h => h

/-- **One block** is erased at most once and then written. -/
theorem processBlock_commands :
    Ends (processBlock d.recording chip policy b (Image.slice new b.span)) ex fun _ ex' =>
      ∃ cs, b.Served new cs ∧ ex'.journal = ex.journal ++ cs := by
  have hsize : (Image.slice new b.span).size ≤ b.size := by
    rw [Image.slice, Array.size_extract]
    unfold Block.span
    dsimp only
    omega
  refine processBlock_ends (P := fun erased ex' =>
    ex'.journal = ex.journal ++ if erased then [b.command] else []) (fun _ => ?_)
    (fun _ => (List.append_nil _).symm) fun erased ex₁ h₁ => ?_
  · refine eraseBlock_commands.mono fun r ex₁ h₁ => ?_
    cases r with
    | ok _ => exact h₁
    | error e => exact ⟨[b.command], ⟨_, [], rfl, .inr rfl, ascending_nil⟩, h₁⟩
  · refine writeWindows_commands.mono ?_
    rintro _ ex₂ ⟨ws, hws, h₂⟩
    refine ⟨_, ⟨if erased then [b.command] else [], _, rfl, ?_, hws.shift hsize b.start⟩, ?_⟩
    · cases erased
      · exact .inl rfl
      · exact .inr rfl
    · -- a part of what the block should hold is what `new` holds there
      have hstoring : ws.map (fun w => .write (b.start + w.start)
          (Image.slice (Image.slice new b.span) w)) =
          (ws.map fun w => ⟨b.start + w.start, w.len⟩).map (Command.storing new) := by
        rw [List.map_map]
        refine List.map_congr_left fun w hw => congrArg _ (Image.slice_slice ?_)
        exact ((hws.bounds w hw).2.2).trans hsize
      rw [h₂, h₁, List.append_assoc, hstoring]

/-- **Block after block**: an execution that ends early leaves the others alone. -/
theorem processBlocks_commands {done : ℕ} :
    Ends (processBlocks d.recording chip policy new bs done) ex fun _ ex' =>
      ∃ cs, AllServed new bs cs ∧ ex'.journal = ex.journal ++ cs := by
  refine processBlocks_past
    (J := fun past (dev : σ × List Command) _ _ => ∃ cs, AllServed new past cs ∧
      dev.2 = ex.journal ++ cs)
    (Q := fun _ (dev : σ × List Command) _ _ => ∃ cs, AllServed new bs cs ∧
      dev.2 = ex.journal ++ cs)
    (fun _ _ _ hserved => hserved) ?_ ⟨[], allServed_nil new [], (List.append_nil _).symm⟩
  rintro past b rest ex₁ hbs ⟨cs, hserved, hjournal⟩
  have hblock : Ends (processBlock d.recording chip policy b (Image.slice new b.span))
    (ex₁.enter b) _ := processBlock_commands
  refine hblock.mono ?_
  rintro r ex₂ ⟨cs', hcs', hjournal₂⟩
  have hserved₂ : AllServed new (past ++ [b]) (cs ++ cs') := hserved.append hcs'.all
  have hfollow : ex₂.journal = ex.journal ++ (cs ++ cs') := by
    rw [hjournal₂, ← List.append_assoc, ← hjournal]
    rfl
  refine afterBlock_of (fun _ _ _ => ⟨_, hserved₂, hfollow⟩) fun _ _ _ => ⟨_, ?_, hfollow⟩
  -- no command for what remains
  have hall := hserved₂.append (allServed_nil new rest)
  rwa [List.append_assoc, List.singleton_append, ← hbs, List.append_nil] at hall

/-- **The whole plan**, also if what the chip is taken to hold has another size. -/
theorem executePlan_served {plan : Plan} {current : Image} {s : Session (σ × List Command)} :
    Ends (executePlan d.recording chip plan current policy) s fun _ s' =>
      ∃ cs, AllServed plan.new plan.blocks cs ∧ s'.device.2 = s.device.2 ++ cs := by
  by_cases hsize : current.size = plan.new.size
  · refine executePlan_ends (Q := fun _ _ (dev : σ × List Command) =>
      ∃ cs, AllServed plan.new plan.blocks cs ∧ dev.2 = s.device.2 ++ cs) hsize fun u hu => ?_
    refine processBlocks_commands.mono ?_
    rintro _ ex ⟨cs, hserved, hjournal⟩
    refine ⟨cs, hserved, hjournal.trans ?_⟩
    rw [Execution.journal, hu]
  · unfold executePlan
    rw [if_pos hsize]
    exact ⟨[], allServed_nil _ _, (List.append_nil _).symm⟩

/-! ## What the commands touch -/

/-- The commands for a block stay inside the block. -/
theorem Block.Served.within (h : b.Served new cs) (hc : c ∈ cs) : c.span.Within b.span := by
  obtain ⟨erases, ws, rfl, herases, hws⟩ := h
  rcases List.mem_append.1 hc with hc | hc
  · rcases herases with rfl | rfl
    · cases hc
    · rw [List.mem_singleton.1 hc]
      exact fun _ ha => ha
  · obtain ⟨w, hw, rfl⟩ := List.mem_map.1 hc
    rintro a ⟨h1, h2⟩
    have hsize : (Image.slice new w).size ≤ w.len := by
      rw [Image.slice, Array.size_extract]
      omega
    have hbounds := hws.bounds w hw
    simp only [Command.storing, Command.span] at h1 h2
    unfold Span.stop at hbounds
    rw [Block.span, Span.mem_def]
    dsimp only
    omega

/-- The erase is of another kind than the writes, and the writes lie one behind the other. -/
theorem Block.Served.apart (h : b.Served new cs) : cs.Pairwise Command.Apart := by
  obtain ⟨erases, ws, rfl, herases, hws⟩ := h
  refine List.pairwise_append.2 ⟨?_, List.pairwise_map.2 (hws.sorted.imp ?_), ?_⟩
  · rcases herases with rfl | rfl
    · exact List.Pairwise.nil
    · exact List.pairwise_singleton _ _
  · rintro v w hvw - a ⟨-, h1⟩ ⟨h2, -⟩
    have hsize : (Image.slice new v).size ≤ v.len := by
      rw [Image.slice, Array.size_extract]
      omega
    simp only [Command.storing, Command.span] at h1 h2
    unfold Span.stop at hvw
    omega
  · intro c hc c' hc' hkind
    obtain ⟨w, -, rfl⟩ := List.mem_map.1 hc'
    rcases herases with rfl | rfl
    · cases hc
    · rw [List.mem_singleton.1 hc] at hkind
      cases hkind

theorem AllServed.within (h : AllServed new bs cs) (hc : c ∈ cs) :
    ∃ b ∈ bs, c.span.Within b.span := by
  obtain ⟨css, hserved, rfl⟩ := h
  induction hserved with
  | nil => cases hc
  | cons hb _ ih =>
    rw [List.flatten_cons] at hc
    rcases List.mem_append.1 hc with hc | hc
    · exact ⟨_, List.mem_cons_self, hb.within hc⟩
    · obtain ⟨b', hb', hin⟩ := ih hc
      exact ⟨b', List.mem_cons_of_mem _ hb', hin⟩

/-- Commands for blocks without a common address. -/
theorem AllServed.apart (h : AllServed new bs cs)
    (hdis : bs.Pairwise fun b c => ∀ a ∈ b.span, a ∉ c.span) : cs.Pairwise Command.Apart := by
  obtain ⟨css, hserved, rfl⟩ := h
  induction hserved with
  | nil => exact List.Pairwise.nil
  | cons hb hrest ih =>
    obtain ⟨hfirst, hdis⟩ := List.pairwise_cons.1 hdis
    rw [List.flatten_cons]
    refine List.pairwise_append.2 ⟨hb.apart, ih hdis, fun c hc c' hc' _ a ha ha' => ?_⟩
    obtain ⟨b', hb', hin⟩ := AllServed.within ⟨_, hrest, rfl⟩ hc'
    exact hfirst b' hb' a (hb.within hc a ha) (hin a ha')

/-- Of commands that are apart, at most one of a kind has an address. -/
theorem countP_apart_le (h : cs.Pairwise Command.Apart) (kind : Bool) (a : ℕ) :
    cs.countP (fun c => c.isErase == kind && decide (a ∈ c.span)) ≤ 1 := by
  refine countP_le_one (h.imp fun {c c'} hapart hfirst hsecond => ?_)
  rw [Bool.and_eq_true, beq_iff_eq, decide_eq_true_eq] at hfirst hsecond
  exact hapart (hfirst.1.trans hsecond.1.symm) a hfirst.2 hsecond.2

/-- A device that refuses every third command. -/
def Device.flaky : Device ℕ where
  read _ _ n := .quiet (.error .readFailed) n
  write address _ n := .quiet (if n % 3 = 2 then .error (.accessDenied address) else .ok ()) (n + 1)
  erase _ address _ n :=
    .quiet (if n % 3 = 2 then .error (.accessDenied address) else .ok ()) (n + 1)

/-- **The commands of an execution** follow the blocks of the plan. Each block is erased at most once
and then written with what the plan wants there, and no command leaves the units, so that no byte
is erased twice or written twice. The device may fail at any point and in any way, and the policy
and what the chip is taken to hold do not matter. The commands are those that the device is given,
since the journal of them changes nothing. -/
theorem executePlan_commands {τ : Type} {old : Image} {extent : ℕ} {filter : EraserFilter τ}
    {t : Session τ} {plan : Plan} (hplan : (Plan.prepare chip old new extent filter t).1 = .ok plan)
    (d : Device σ) (policy : Policy) (current : Image) (s : Session σ) :
    ∃ r s' cs, executePlan d.recording chip plan current policy s.journaled = (r, s') ∧
      executePlan d chip plan current policy s = (r, s'.plain) ∧ s'.device.2 = cs ∧
      AllServed plan.new plan.blocks cs ∧
      (∀ b ∈ plan.blocks, b.start + b.size ≤ plan.new.size) ∧
      (∀ c ∈ cs, ∃ u ∈ plan.units, c.span.Within u.span) ∧
      ∀ kind a, cs.countP (fun c => c.isErase == kind && decide (a ∈ c.span)) ≤ 1 := by
  obtain ⟨hold, hnew, es, -, -, hes, rfl⟩ := prepare_eq hplan
  have hwell : (Plan.ofErasers chip old new es).WellFormed chip.totalSize :=
    wellFormed_ofErasers hes hold hnew
  have hrun : Ends (executePlan d.recording chip (Plan.ofErasers chip old new es) current policy)
    s.journaled _ := executePlan_served
  obtain ⟨cs, hserved, hjournal⟩ := hrun
  refine ⟨_, _, cs, rfl, executePlan_recording d chip policy _ current s.journaled, hjournal,
    hserved, fun b hb => (hwell.blocks_inside hb).trans_eq hnew.symm, fun c hc => ?_,
    countP_apart_le (hserved.apart hwell.blocks_disjoint)⟩
  obtain ⟨b, hb, hin⟩ := hserved.within hc
  obtain ⟨u, hu, hbu⟩ := mem_blocks_iff.1 hb
  exact ⟨u, hu, fun a ha => mem_unit_span.2 ⟨b, hbu, hin a ha⟩⟩

/-- Of two blocks that should be erased and written, the first one is, and the erase of the second
one is refused. -/
theorem executePlan_commands_flaky : ∃ plan cs,
    (Plan.prepare Chip.small (Image.blank 8 0) (Image.blank 8 7) 8 EraserFilter.all
      (⟨(), #[], #[]⟩ : Session Unit)).1 = .ok plan ∧
    AllServed plan.new plan.blocks cs ∧
    cs = [.erase 0 0 4, .write 0 (Image.blank 4 7), .erase 0 4 4] := by
  obtain ⟨r, s', cs, hrun, -, hjournal, hserved, -⟩ := @executePlan_commands ℕ Chip.small
    (Image.blank 8 7) Unit (Image.blank 8 0) 8 EraserFilter.all ⟨(), #[], #[]⟩
    ⟨Image.blank 8 0, Image.blank 8 7, [⟨4, 0, 2, 0, 0⟩]⟩ rfl Device.flaky {} (Image.blank 8 0)
    ⟨0, #[], #[]⟩
  refine ⟨_, cs, rfl, hserved, ?_⟩
  rw [← hjournal, ← congrArg (fun x => x.2.device.2) hrun]
  decide +kernel

end Reflash
