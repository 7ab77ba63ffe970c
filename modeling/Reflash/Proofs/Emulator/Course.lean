import Reflash.Proofs.Emulator.Blocks
import Reflash.Proofs.Emulator.Success

/-!
# The course of an execution

Blocks of a plan share no address, so what an execution does to a block follows from
what the chip held there at the start. Each block undergoes the commands that it
needs up to the first one that is refused (`granted`). The execution ends behind the
last block, or in a block with a command that failed with an error that the policy
does not ignore.

* `Midway`: what holds while some blocks are processed and the others are not.
* `processBlocks_course`, `executePlan_course`: how an execution ends.
-/

namespace Reflash.Emulator

variable {chip : Chip} {policy : Policy} {new : Image} {b : Block} {bs past : List Block}
  {pre post cs : List Command} {c : Command} {e e' dev : Emulator} {s : Session Emulator}

/-! ## What is granted to a block -/

/-- The commands for a block, as the chip holds it. -/
def commandsFor (e : Emulator) (new : Image) (b : Block) : List Command :=
  b.commands e.config.chip (Image.slice e.memory b.span) (Image.slice new b.span)

/-- Those before the first one that is refused. -/
def granted (e : Emulator) (new : Image) (b : Block) : List Command :=
  (e.commandsFor new b).takeWhile e.accepts

/-- One of the commands for the block is refused. -/
def denies (e : Emulator) (new : Image) (b : Block) : Bool := !(e.commandsFor new b).all e.accepts

/-- The memory after the granted commands for the block, without those for other blocks. -/
def settled (e : Emulator) (new : Image) (b : Block) : Image :=
  Command.applyAll e.config.chip (e.granted new b) e.memory

/-- What a block needs depends on what the chip holds of it. -/
theorem commandsFor_congr (h : e.Alike e') (hb : b.span.stop ≤ e.memory.size)
    (hagree : Image.Agree b.span e'.memory e.memory) :
    e'.commandsFor new b = e.commandsFor new b := by
  have hslice : Image.slice e'.memory b.span = Image.slice e.memory b.span :=
    (Image.agree_iff_slice (h.size.symm ▸ hb) hb).1 hagree
  unfold commandsFor
  rw [hslice, h.config]

theorem granted_initial : e.granted new b <+: e.commandsFor new b := List.takeWhile_prefix _

theorem granted_accepted (hc : c ∈ e.granted new b) : e.accepts c = true :=
  List.mem_takeWhile_imp hc

/-- Without a refusal, all commands are granted. -/
theorem granted_eq (h : e.denies new b = false) : e.granted new b = e.commandsFor new b := by
  unfold denies at h
  rw [Bool.not_eq_false', List.all_eq_true] at h
  exact List.takeWhile_eq_self_iff.2 h

/-- The commands before the first refusal. -/
theorem granted_eq_of_refused (hcs : e.commandsFor new b = pre ++ c :: post)
    (hpre : ∀ c ∈ pre, e.accepts c = true) (hc : e.accepts c = false) :
    e.granted new b = pre ∧ e.denies new b = true := by
  constructor
  · unfold granted
    rw [hcs, List.takeWhile_append_of_pos hpre, List.takeWhile_cons_of_neg (by simp [hc]),
      List.append_nil]
  · unfold denies
    rw [hcs, List.all_append, List.all_cons, hc, Bool.false_and, Bool.and_false]
    rfl

/-- A refused command is left after the granted ones. -/
theorem exists_refused (h : e.denies new b = true) : ∃ c post,
    e.commandsFor new b = e.granted new b ++ c :: post ∧ e.accepts c = false := by
  have hsplit : e.granted new b ++ (e.commandsFor new b).dropWhile e.accepts =
      e.commandsFor new b := List.takeWhile_append_dropWhile
  cases hrest : (e.commandsFor new b).dropWhile e.accepts with
  | nil =>
    -- then all commands are granted
    rw [hrest, List.append_nil] at hsplit
    have hall : (e.commandsFor new b).all e.accepts = true :=
      List.all_eq_true.2 (List.takeWhile_eq_self_iff.1 hsplit)
    unfold denies at h
    rw [hall] at h
    cases h
  | cons c post =>
    rw [hrest] at hsplit
    refine ⟨c, post, hsplit.symm, ?_⟩
    have hhead := List.head?_dropWhile_not e.accepts (e.commandsFor new b)
    rw [hrest] at hhead
    exact hhead

/-- The granted commands stay inside the block. -/
theorem granted_within (hb : b.start + b.size ≤ new.size) (hc : c ∈ e.granted new b) :
    c.span.Within b.span :=
  commands_within (Image.size_slice hb) (granted_initial.subset hc)

/-- **In the block**, every byte is then as it was, as it should be, or erased. The last is possible
only if the erase was granted. -/
theorem byte_settled (hbits : e.config.chip.BitsErased) (hb : b.start + b.size ≤ e.memory.size)
    (hnew : b.start + b.size ≤ new.size) {a : ℕ} (ha : a ∈ b.span) :
    (e.settled new b).byte a = e.memory.byte a ∨ (e.settled new b).byte a = new.byte a ∨
      b.command ∈ e.granted new b ∧ (e.settled new b).byte a = e.config.chip.erasedValue :=
  byte_commands hbits hb hnew granted_initial ha

/-- **If nothing is refused**, the block is then what it should be. -/
theorem settled_agree (hbits : e.config.chip.BitsErased) (hb : b.start + b.size ≤ e.memory.size)
    (hnew : b.start + b.size ≤ new.size) (hnone : e.denies new b = false) :
    Image.Agree b.span (e.settled new b) new := by
  unfold settled
  rw [granted_eq hnone]
  exact agree_commands hbits hb hnew

/-! ## What became of a block -/

/-- However it ended, some of the commands took effect. -/
theorem Runs.initial {α : Type} {r : Except ExecutionError α} (hstuck : e.config.stuckBits = [])
    (h : e.Runs policy cs r e') : ∃ pre, pre <+: cs ∧ e.Underwent pre e' := by
  cases r with
  | ok a => exact ⟨cs, List.prefix_refl cs, h⟩
  | error err =>
    obtain ⟨pre, c, post, rfl, -, hstops⟩ := h
    rcases hstops.initial hstuck with hunder | hunder
    · exact ⟨pre, List.prefix_append _ _, hunder⟩
    · exact ⟨pre ++ [c], ⟨post, by simp⟩, hunder⟩

/-- However it ended, nothing happened outside the block. -/
theorem Runs.byte_outside {α : Type} {r : Except ExecutionError α}
    (hstuck : dev.config.stuckBits = []) (hb : b.start + b.size ≤ new.size)
    (h : dev.Runs policy (e.commandsFor new b) r e') {a : ℕ} (ha : a ∉ b.span) :
    e'.memory.byte a = dev.memory.byte a := by
  obtain ⟨pre, hpre, hunder⟩ := h.initial hstuck
  rw [hunder.memory]
  refine Command.byte_applyAll fun c hc hac => ha ?_
  exact commands_within (Image.size_slice hb) (hpre.subset hc) a hac

/-- A block that was completed underwent all of its commands, none of which is refused. -/
theorem Runs.completed {α : Type} {a : α} (hal : e.Alike dev)
    (h : dev.Runs policy (e.commandsFor new b) (.ok a) e') :
    dev.Underwent (e.granted new b) e' ∧ e.denies new b = false := by
  have hunder : dev.Underwent (e.commandsFor new b) e' := h
  have hnone : e.denies new b = false := by
    unfold denies
    rw [Bool.not_eq_false', List.all_eq_true]
    intro c hc
    have haccepted := hunder.accepted c hc
    rwa [accepts, check_congr hal] at haccepted
  rw [granted_eq hnone]
  exact ⟨hunder, hnone⟩

/-- **A block that was given up because of an error that is ignored** underwent the commands before
the one that is refused. -/
theorem Runs.ignored {α : Type} {err : ExecutionError} (hstuck : e.config.stuckBits = [])
    (hal : e.Alike dev) (hign : policy.ignores err.cause = true)
    (h : dev.Runs (α := α) policy (e.commandsFor new b) (.error err) e') :
    dev.Underwent (e.granted new b) e' ∧ e.denies new b = true := by
  obtain ⟨pre, c, post, hcs, -, hstops⟩ := h
  cases hstops with
  | unverified _ hkept _ =>
    rw [hkept] at hign
    cases hign
  | failed mid hpre hresult hdevice =>
    have hmid : e.Alike mid := hal.trans hpre.alike
    cases hcheck : mid.check c with
    | ok _ =>
      -- being late is not ignored
      have hstuck : mid.config.stuckBits = [] := by rw [hmid.config, hstuck]
      rcases (perform_accepted hstuck hcheck).2 with hok | ⟨-, hlate⟩
      · rw [hok] at hresult
        cases hresult
      · rw [hlate] at hresult
        injection hresult with hcause
        rw [← hcause] at hign
        cases hign
    | error cause =>
      rw [perform_refused hcheck] at hdevice
      have hrefused : e.accepts c = false := by
        rw [check_congr hmid] at hcheck
        rw [accepts, hcheck]
        rfl
      have haccepted : ∀ c ∈ pre, e.accepts c = true := by
        intro c hc
        have haccepted := hpre.accepted c hc
        rwa [accepts, check_congr hal] at haccepted
      obtain ⟨hgranted, hdenies⟩ := granted_eq_of_refused hcs haccepted hrefused
      rw [hgranted]
      exact ⟨hdevice ▸ hpre, hdenies⟩

/-! ## All blocks -/

/-- The blocks in `past` were processed. They hold what the granted commands made of them, everything
else is as it was, and the denied ones are counted. -/
structure Midway (e : Emulator) (policy : Policy) (new : Image) (past : List Block)
    (dev : Emulator) (current : Image) (stats : ExecutionStats) : Prop where
  alike : e.Alike dev
  prompt : e.Prompt → dev.Prompt
  size : current.size = e.memory.size
  settled : ∀ b ∈ past, Image.Agree b.span dev.memory (e.settled new b)
  fresh : ∀ a, (∀ b ∈ past, a ∉ b.span) →
    dev.memory.byte a = e.memory.byte a ∧ current.byte a = e.memory.byte a
  denied : stats.denied = past.countP (e.denies new)
  ignored : ∀ b ∈ past, e.denies new b = true → policy.accessDenied = .ignore

/-- At the start, no block was processed. -/
theorem Midway.start (e : Emulator) (policy : Policy) (new : Image) :
    e.Midway policy new [] e e.memory {} :=
  ⟨Alike.refl e, id, rfl, by simp, fun _ _ => ⟨rfl, rfl⟩, rfl, by simp⟩

/-- **One more block**, apart from those before it. -/
theorem Midway.next {current part : Image} {stats stats' : ExecutionStats}
    (h : e.Midway policy new past dev current stats) (hdis : ∀ c ∈ past, ∀ a ∈ c.span, a ∉ b.span)
    (hnew : b.start + b.size ≤ new.size) (hunder : dev.Underwent (e.granted new b) e')
    (hpart : part.size = b.size)
    (hdenied : stats'.denied = stats.denied + if e.denies new b then 1 else 0)
    (hign : e.denies new b = true → policy.accessDenied = .ignore) :
    e.Midway policy new (past ++ [b]) e' (Image.overlay current b.start part) stats' := by
  have hwithin : ∀ c ∈ e.granted new b, c.span.Within b.span := fun c hc => granted_within hnew hc
  -- the commands for this block change nothing outside it
  have houtside : ∀ a, a ∉ b.span → e'.memory.byte a = dev.memory.byte a := by
    intro a ha
    rw [hunder.memory]
    exact Command.byte_applyAll fun c hc hac => ha (hwithin c hc a hac)
  obtain ⟨hfresh, -⟩ := Fresh.agree h.fresh hdis
  refine ⟨h.alike.trans hunder.alike, hunder.prompt ∘ h.prompt, Image.size_overlay.trans h.size,
    ?_, Fresh.next h.fresh hpart houtside, ?_, ?_⟩
  · intro c hc
    rcases List.mem_append.1 hc with hc | hc
    · intro a ha
      rw [houtside a (hdis c hc a ha)]
      exact h.settled c hc a ha
    · rw [List.mem_singleton.1 hc, hunder.memory, h.alike.config]
      exact Command.agree_applyAll h.alike.size hwithin hfresh
  · rw [hdenied, h.denied, List.countP_append, List.countP_singleton]
  · intro c hc hden
    rcases List.mem_append.1 hc with hc | hc
    · exact h.ignored c hc hden
    · rw [List.mem_singleton.1 hc] at hden
      exact hign hden

/-- What became of the blocks in `past` does not change while another one is processed. -/
theorem Midway.settled_after {current : Image} {stats : ExecutionStats} {α : Type}
    {r : Except ExecutionError α} (h : e.Midway policy new past dev current stats)
    (hstuck : e.config.stuckBits = []) (hb : b.start + b.size ≤ new.size)
    (hapart : ∀ c ∈ past, ∀ a ∈ c.span, a ∉ b.span)
    (hruns : dev.Runs policy (e.commandsFor new b) r e') :
    ∀ c ∈ past, Image.Agree c.span e'.memory (e.settled new c) := by
  have hstuck' : dev.config.stuckBits = [] := by rw [h.alike.config, hstuck]
  intro c hc a ha
  rw [hruns.byte_outside hstuck' hb (hapart c hc a ha)]
  exact h.settled c hc a ha

/-- How an execution that processes these blocks ends: behind the last one, or in one of them, with
an error that the policy does not ignore. -/
def Course (e : Emulator) (policy : Policy) (new : Image) (bs : List Block) :
    Except ExecutionError ExecutionStats → Emulator → Prop
  | .ok stats, e' => ∃ current, e.Midway policy new bs e' current stats
  | .error err, e' => ∃ past b rest dev current stats, bs = past ++ b :: rest ∧
      e.Midway policy new past dev current stats ∧ policy.ignores err.cause = false ∧
      dev.Runs (α := BlockOutcome) policy (e.commandsFor new b) (.error err) e'

/-- **One block** of an execution: the next one follows, or the execution ends in this one. -/
theorem processBlock_course {ex : Execution Emulator} {rest : List Block}
    (hstuck : e.config.stuckBits = []) (hchip : e.config.chip = chip)
    (hnew : new.size = e.memory.size) (hb : b.start + b.size ≤ new.size)
    (hdis : ∀ c ∈ past, ∀ a ∈ c.span, a ∉ b.span) (hbs : bs = past ++ b :: rest)
    (h : e.Midway policy new past ex.session.device ex.current ex.stats) :
    Ends (processBlock device chip policy b (Image.slice new b.span)) (ex.enter b)
      (AfterBlock policy b ex.current
        (e.Midway policy new (past ++ [b]))
        fun r dev _ stats => e.Course policy new bs (r.map fun _ => stats) dev) := by
  have hin : b.span.stop ≤ e.memory.size := hb.trans_eq hnew
  have hindev : b.span.stop ≤ ex.session.device.memory.size := h.alike.size.symm ▸ hin
  obtain ⟨hmemory, hcurrent⟩ := Fresh.agree h.fresh hdis
  -- the copy of this block is still what the chip holds of it
  have hcopy : Image.slice ex.current b.span = Image.slice ex.session.device.memory b.span := by
    refine (Image.agree_iff_slice (h.size.symm ▸ hin) hindev).1 fun a ha => ?_
    exact (hcurrent a ha).trans (hmemory a ha).symm
  have hcommands : ex.session.device.commandsFor new b = e.commandsFor new b :=
    commandsFor_congr h.alike hin hmemory
  have hruns : Ends (processBlock device chip policy b (Image.slice new b.span)) (ex.enter b)
      fun r ex' => ex.session.device.Runs policy (e.commandsFor new b) r ex'.session.device := by
    have hblock : Ends (processBlock device chip policy b (Image.slice new b.span)) (ex.enter b) _ :=
      processBlock_runs (h.alike.config ▸ hstuck) (h.alike.config ▸ hchip) hindev
        (Image.size_slice hb) rfl hcopy
    rw [← hcommands, commandsFor, h.alike.config, hchip]
    exact hblock
  have hpart : (ex.enter b).current.size = b.size := Image.size_slice (h.size.symm ▸ hin)
  refine (hruns.and processBlock_counts).mono ?_
  rintro r ex' ⟨hruns, hsize, hdenied⟩
  cases r with
  | ok outcome =>
    obtain ⟨hunder, hnone⟩ := hruns.completed h.alike
    refine h.next hdis hb hunder (hsize.trans hpart) ?_ fun hden => ?_
    · rw [hnone]
      split <;> exact hdenied
    · rw [hnone] at hden
      cases hden
  | error err =>
    unfold AfterBlock
    dsimp only
    split
    · rename_i hign
      obtain ⟨hunder, hdenies⟩ := hruns.ignored hstuck h.alike hign
      refine h.next hdis hb hunder (hsize.trans hpart) ?_ fun _ => ?_
      · rw [hdenies, hdenied]
        rfl
      · unfold Policy.ignores at hign
        rw [Bool.and_eq_true, beq_iff_eq] at hign
        exact hign.2
    · rename_i hkept
      exact ⟨past, b, rest, ex.session.device, ex.current, ex.stats, hbs, h,
        Bool.eq_false_iff.2 hkept, hruns⟩

/-- **Blocks without a common address** take the course that is determined by what the chip holds at
the start. -/
theorem processBlocks_course {ex : Execution Emulator} {done : ℕ}
    (hstuck : e.config.stuckBits = []) (hchip : e.config.chip = chip)
    (hnew : new.size = e.memory.size) (hin : ∀ b ∈ bs, b.start + b.size ≤ new.size)
    (hdis : bs.Pairwise fun b c => ∀ a ∈ b.span, a ∉ c.span)
    (h : e.Midway policy new [] ex.session.device ex.current ex.stats) :
    Ends (processBlocks device chip policy new bs done) ex fun r ex' =>
      e.Course policy new bs (r.map fun _ => ex'.stats) ex'.session.device := by
  refine processBlocks_past
    (J := fun past dev current stats => e.Midway policy new past dev current stats)
    (Q := fun r dev _ stats => e.Course policy new bs (r.map fun _ => stats) dev)
    (fun dev current stats hmidway => ⟨current, hmidway⟩) ?_ h
  intro past b rest ex₁ hbs hmidway
  have hb : b ∈ bs := by rw [hbs]; simp
  exact processBlock_course hstuck hchip hnew (hin b hb) (Block.apart hdis hbs) hbs hmidway

/-- **The whole plan**, from a chip that is taken to hold what it does. -/
theorem executePlan_course {plan : Plan} (hstuck : s.device.config.stuckBits = [])
    (he : s.device.Emulates chip) (hwell : plan.WellFormed chip.totalSize)
    (hnew : plan.new.size = chip.totalSize) (policy : Policy) :
    Ends (executePlan device chip plan s.device.memory policy) s fun r s' =>
      s.device.Course policy plan.new plan.blocks r.1 s'.device := by
  have hsize : plan.new.size = s.device.memory.size := hnew.trans he.size.symm
  refine executePlan_ends (Q := fun r _ dev => s.device.Course policy plan.new plan.blocks r dev)
    hsize.symm fun t ht => ?_
  refine processBlocks_course hstuck he.follows hsize (fun b hb => ?_) hwell.blocks_disjoint ?_
  · exact (hwell.blocks_inside hb).trans_eq hnew.symm
  · rw [ht]
    exact Midway.start s.device policy plan.new

end Reflash.Emulator
