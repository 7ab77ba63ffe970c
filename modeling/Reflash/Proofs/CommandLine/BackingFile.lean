import Reflash.Proofs.CommandLine.Actions
import Reflash.Proofs.Emulator.Success

/-!
# The file of the emulated chip

Commands that program the emulated chip read the images they need, open the chip, run one operation
on it and store its memory. No file changes before, and only one file then.

* `Opens`: the chip that a command opens, and what is done with it.
* `programChip_ends`: the operation is stored, whatever came of it.
* `runCommand_mirrors`: what every command does with the files.
* `files_mirrored`: the same for the whole program, from its arguments on.
-/

namespace Reflash.CommandLine

open Emulator

variable {db : Database} {fs : Files} {chip : Chip} {t : Target} {p : Programming} {memory : Image}
  {w : World}

/-- With these files, the command opens the emulated chip and performs the operation on it. All
that it reads is there: a chip without defects, its contents, and images of its size. -/
inductive Opens (db : Database) (fs : Files) :
    Command → Target → Emulator → Task Emulator OperationError Summary → Prop
  | write {t : Target} {input : String} {p : Programming} {chip : Chip} {new memory : Image}
      {reference : Option Image} :
    resolveChip db t.chip = .ok chip → Provides fs chip input new →
    Option.Rel (Provides fs chip) p.diff.file reference → t.Holds fs chip memory →
    Opens db fs (.write t input p) t (t.emulator chip memory)
      (writeImage device chip new (writeOptions p reference))
  | erase {t : Target} {p : Programming} {chip : Chip} {memory : Image}
      {reference : Option Image} :
    resolveChip db t.chip = .ok chip →
    Option.Rel (Provides fs chip) p.diff.file reference → t.Holds fs chip memory →
    Opens db fs (.erase t p) t (t.emulator chip memory)
      (eraseImage device chip (writeOptions p reference))

/-- The command programs the emulated chip. -/
def Command.Programs : Command → Prop
  | .write _ _ _ | .erase _ _ => True
  | .listChips _ | .plan _ _ _ _ _ | .verify _ _ _ => False

/-- A command opens one chip and performs one operation at most. -/
theorem Opens.unique {c : Command} {t' : Target} {e e' : Emulator}
    {operation operation' : Task Emulator OperationError Summary}
    (h : Opens db fs c t e operation) (h' : Opens db fs c t' e' operation') :
    t = t' ∧ e = e' ∧ operation = operation' := by
  cases h with
  | write hchip hnew hreference hmemory =>
    cases h' with
    | write hchip' hnew' hreference' hmemory' =>
      obtain rfl := Except.ok.inj (hchip.symm.trans hchip')
      obtain rfl := hnew.unique hnew'
      obtain rfl := unique_reference hreference hreference'
      obtain rfl := hmemory.unique hmemory'
      exact ⟨rfl, rfl, rfl⟩
  | erase hchip hreference hmemory =>
    cases h' with
    | erase hchip' hreference' hmemory' =>
      obtain rfl := Except.ok.inj (hchip.symm.trans hchip')
      obtain rfl := unique_reference hreference hreference'
      obtain rfl := hmemory.unique hmemory'
      exact ⟨rfl, rfl, rfl⟩

/-! ## Programming -/

/-- What the operation made of the emulated chip is in the file, if the file can be written. -/
structure Stored (t : Target) (before after : Files)
    (r : Except OperationError Summary × Session Emulator) (success : Prop) : Prop where
  written : ∀ p, before.Writable t.flash p → after = before.set p r.2.device.memory ∧
    (success ↔ ∃ summary, r.1 = .ok summary)
  refused : (¬∃ p, before.Writable t.flash p) → after = before ∧ ¬success

/-- **The operation is stored**, whatever came of it. -/
theorem programChip_ends {operation : Task Emulator OperationError Summary} :
    Ends (programChip chip t operation) w fun r w' =>
      (∃ memory, t.Holds w.files chip memory ∧ Stored t w.files w'.files
        (operation ⟨t.emulator chip memory, #[], #[]⟩) (r = .ok ())) ∨
      (¬∃ memory, t.Holds w.files chip memory) ∧ w'.files = w.files ∧ r ≠ .ok () := by
  unfold programChip
  refine Gives.andThen gives_openChip ?_ ?_
  · rintro _ w₁ hfiles₁ ⟨memory, hmemory, rfl⟩
    refine Gives.andThen gives_runOnChip ?_ ?_
    · rintro _ w₂ hfiles₂ rfl
      have hfiles : w₂.files = w.files := hfiles₂.trans hfiles₁
      refine Ends.andThen saveChip_ends ?_ ?_
      · rintro _ w₃ (⟨p, hp, -, hset⟩ | ⟨-, hne, -⟩)
        · rw [hfiles] at hp hset
          refine Ends.mono gives_conclude ?_
          rintro r w₄ ⟨hfiles₄, hr⟩
          refine .inl ⟨memory, hmemory, ⟨fun q hq => ?_, fun hnone => absurd ⟨p, hp⟩ hnone⟩⟩
          obtain rfl := Except.ok.inj (hp.leads.symm.trans hq.leads)
          exact ⟨hfiles₄.trans hset, hr ()⟩
        · exact absurd rfl hne
      · rintro e w₃ (⟨p, hp, ⟨⟩, -⟩ | ⟨hnone, hne, hfiles₃⟩)
        rw [hfiles] at hnone
        exact .inl ⟨memory, hmemory,
          ⟨fun p hp => absurd ⟨p, hp⟩ hnone, fun _ => ⟨hfiles₃.trans hfiles, hne⟩⟩⟩
    · rintro e w₂ - hnone
      exact absurd ⟨_, rfl⟩ hnone
  · intro e w₁ hfiles hnone
    refine .inr ⟨?_, hfiles, nofun⟩
    rintro ⟨memory, hmemory⟩
    exact hnone ⟨_, memory, hmemory, rfl⟩

/-- What a command that programs the chip comes to: its operation is stored, or it stopped before
the chip was opened. -/
def Carried (db : Database) (c : Command) (before after : Files) (success : Prop) : Prop :=
  (∃ t e operation, Opens db before c t e operation ∧
    Stored t before after (operation ⟨e, #[], #[]⟩) success) ∨
  (¬∃ t e operation, Opens db before c t e operation) ∧ after = before ∧ ¬success

/-- A write opens the chip once both images are read. -/
theorem runWrite_ends {input : String} (hchip : resolveChip db t.chip = .ok chip) :
    Ends (runWrite chip t input p) w fun r w' =>
      Carried db (.write t input p) w.files w'.files (r = .ok ()) := by
  -- whatever else is opened, it is the same chip
  have hstop : (∀ new memory reference, Provides w.files chip input new →
      Option.Rel (Provides w.files chip) p.diff.file reference → ¬t.Holds w.files chip memory) →
      ¬∃ t' e operation, Opens db w.files (.write t input p) t' e operation := by
    rintro hnone ⟨t', e, operation, h⟩
    cases h with
    | write hchip' hnew hreference hmemory =>
      obtain rfl := Except.ok.inj (hchip.symm.trans hchip')
      exact hnone _ _ _ hnew hreference hmemory
  unfold runWrite
  refine Gives.andThen gives_readImageFile ?_ ?_
  · intro new w₁ hfiles₁ hnew
    refine Gives.andThen gives_readReference ?_ ?_
    · intro reference w₂ hfiles₂ hreference
      rw [hfiles₁] at hfiles₂ hreference
      refine programChip_ends.mono ?_
      rw [hfiles₂]
      rintro r w₃ (⟨memory, hmemory, hstored⟩ | ⟨hnone, hstopped⟩)
      · exact .inl ⟨t, _, _, .write hchip hnew hreference hmemory, hstored⟩
      · exact .inr ⟨hstop fun _ memory _ _ _ h => hnone ⟨memory, h⟩, hstopped⟩
    · intro e w₂ hfiles₂ hnone
      rw [hfiles₁] at hfiles₂ hnone
      exact .inr ⟨hstop fun _ _ reference _ h _ => hnone ⟨reference, h⟩, hfiles₂, nofun⟩
  · intro e w₁ hfiles₁ hnone
    exact .inr ⟨hstop fun new _ _ h _ _ => hnone ⟨new, h⟩, hfiles₁, nofun⟩

/-- An erase opens the chip once the image to compare with is read. -/
theorem runErase_ends (hchip : resolveChip db t.chip = .ok chip) :
    Ends (runErase chip t p) w fun r w' =>
      Carried db (.erase t p) w.files w'.files (r = .ok ()) := by
  have hstop : (∀ memory reference, Option.Rel (Provides w.files chip) p.diff.file reference →
      ¬t.Holds w.files chip memory) →
      ¬∃ t' e operation, Opens db w.files (.erase t p) t' e operation := by
    rintro hnone ⟨t', e, operation, h⟩
    cases h with
    | erase hchip' hreference hmemory =>
      obtain rfl := Except.ok.inj (hchip.symm.trans hchip')
      exact hnone _ _ hreference hmemory
  unfold runErase
  refine Gives.andThen gives_readReference ?_ ?_
  · intro reference w₁ hfiles₁ hreference
    refine programChip_ends.mono ?_
    rw [hfiles₁]
    rintro r w₂ (⟨memory, hmemory, hstored⟩ | ⟨hnone, hstopped⟩)
    · exact .inl ⟨t, _, _, .erase hchip hreference hmemory, hstored⟩
    · exact .inr ⟨hstop fun memory _ _ h => hnone ⟨memory, h⟩, hstopped⟩
  · intro e w₁ hfiles₁ hnone
    exact .inr ⟨hstop fun _ reference h _ => hnone ⟨reference, h⟩, hfiles₁, nofun⟩

/-! ## Whole commands -/

/-- A write that reads the chip and verifies all of it succeeds only if it leaves the new image. -/
theorem writeImage_leaves {e : Emulator} {new : Image} {options : WriteOptions} {summary : Summary}
    (hs : chip.Sound) (hu : chip.Uniform) (he : e.Emulates chip)
    (hopen : e.config.protectedRanges = []) (hold : options.old = .readChip)
    (hverify : options.verify = .chip)
    (h : (writeImage device chip new options ⟨e, #[], #[]⟩).1 = .ok summary) :
    (writeImage device chip new options ⟨e, #[], #[]⟩).2.device.memory = new := by
  have hwrite : Ends (writeImage device chip new options) ⟨e, #[], #[]⟩ fun r s' =>
      ∀ summary, r = .ok summary → s'.device.memory = new := by
    refine writeImage_ends
      (Q := fun r (dev : Emulator) => ∀ summary, r = .ok summary → dev.memory = new)
      (fun cause _ summary hok => by cases hok) fun hnew => ?_
    have htells : options.old.Tells chip e.memory := by
      rw [hold]
      trivial
    refine (oldContents_ends htells he.size (Untouched.refl _)).mono ?_
    rintro _ s₁ ⟨⟨mode, rfl⟩, h₁⟩ t ht
    refine (program_success hu hs hopen he.size hnew hverify (ht ▸ h₁)).mono ?_
    exact fun r s₂ hr summary hok => (hr summary hok).1
  exact hwrite summary h

/-- **What a command does with the files**, and whether it ends with success. -/
structure Mirrors (db : Database) (c : Command) (before after : Files) (success : Prop) :
    Prop where
  /-- Once the chip is open, its file is what the operation leaves of it, be it a success or not, and
  no other file changes. -/
  mirrored : ∀ {t e operation q}, Opens db before c t e operation → before.Writable t.flash q →
    after.read t.flash = .ok (operation ⟨e, #[], #[]⟩).2.device.memory ∧
      (∀ q' ≠ q, after.at? q' = before.at? q') ∧
      (success ↔ ∃ summary, (operation ⟨e, #[], #[]⟩).1 = .ok summary)
  /-- If the file cannot be written, nothing changes. -/
  refused : ∀ {t e operation}, Opens db before c t e operation →
    (¬∃ q, before.Writable t.flash q) → after = before ∧ ¬success
  /-- A command that stops before changes nothing. -/
  stopped : (¬∃ t e operation, Opens db before c t e operation) →
    after = before ∧ (c.Programs → ¬success)
  /-- A command that does not program the chip changes nothing. -/
  looks : ¬c.Programs → after = before
  /-- After a full write of a uniform chip, the file is the one that was written. -/
  full : ∀ {t input p chip}, c = .write t input p → resolveChip db t.chip = .ok chip →
    chip.Uniform → t.protectedRanges = [] → p.diff = ⟨false, none⟩ → p.verify = .chip → success →
    ∃ image, before.read input = .ok image ∧ after.read input = .ok image ∧
      after.read t.flash = .ok image

variable {c : Command} {after : Files} {success : Prop}

theorem Carried.full {input : String} (h : Carried db (.write t input p) fs after success)
    (hchip : resolveChip db t.chip = .ok chip) (hu : chip.Uniform) (hopen : t.protectedRanges = [])
    (hdiff : p.diff = ⟨false, none⟩) (hverify : p.verify = .chip) (hsuccess : success) :
    ∃ image, fs.read input = .ok image ∧ after.read input = .ok image ∧
      after.read t.flash = .ok image := by
  rcases h with ⟨_, _, _, hopens, hstored⟩ | ⟨-, -, hfailed⟩
  case inr => exact absurd hsuccess hfailed
  cases hopens with
  | @write _ _ _ chip' new memory reference hchip' hnew hreference hmemory =>
    obtain rfl := Except.ok.inj (hchip.symm.trans hchip')
    have hnone : reference = none := by
      rw [hdiff] at hreference
      cases hreference
      rfl
    subst hnone
    obtain ⟨q, hq⟩ : ∃ q, fs.Writable t.flash q := by
      by_contra hrefused
      exact (hstored.refused hrefused).2 hsuccess
    obtain ⟨hafter, hok⟩ := hstored.written q hq
    obtain ⟨summary, hsummary⟩ := hok.1 hsuccess
    have hold : (writeOptions p none).old = .readChip := by
      unfold writeOptions
      rw [hdiff]
      rfl
    have hwritten := writeImage_leaves (Chip.validate_iff.1 (resolveChip_eq_ok_iff.1 hchip).2) hu
      ⟨rfl, hmemory.size⟩ hopen hold hverify hsummary
    rw [hwritten] at hafter
    subst hafter
    obtain ⟨q', -, hread⟩ := Files.read_set (m := new) hq.file hnew.1
    rw [ite_self] at hread
    exact ⟨new, hnew.1, hread, hq.read_set⟩

/-- What a command that programs the chip comes to, in full. -/
theorem Carried.mirrors (hc : c.Programs) (h : Carried db c fs after success) :
    Mirrors db c fs after success where
  mirrored := by
    intro t e operation q hopens hq
    rcases h with ⟨t', e', operation', hopens', hstored⟩ | ⟨hnone, -⟩
    · obtain ⟨rfl, rfl, rfl⟩ := hopens.unique hopens'
      obtain ⟨rfl, hsuccess⟩ := hstored.written q hq
      refine ⟨hq.read_set, fun q' hne => ?_, hsuccess⟩
      rw [Files.at?_set, if_neg hne]
    · exact absurd ⟨t, e, operation, hopens⟩ hnone
  refused := by
    intro t e operation hopens hrefused
    rcases h with ⟨t', e', operation', hopens', hstored⟩ | ⟨hnone, -⟩
    · obtain ⟨rfl, rfl, rfl⟩ := hopens.unique hopens'
      exact hstored.refused hrefused
    · exact absurd ⟨t, e, operation, hopens⟩ hnone
  stopped := by
    intro hnone
    rcases h with ⟨t, e, operation, hopens, -⟩ | ⟨-, hsame, hfailed⟩
    · exact absurd ⟨t, e, operation, hopens⟩ hnone
    · exact ⟨hsame, fun _ => hfailed⟩
  looks := fun hlooks => absurd hc hlooks
  full := by
    rintro t input p chip rfl hchip hu hopen hdiff hverify hsuccess
    exact h.full hchip hu hopen hdiff hverify hsuccess

/-- Any other command leaves the files as they are. -/
theorem mirrors_of_looks (hc : ¬c.Programs) (h : after = fs) : Mirrors db c fs after success where
  mirrored := by
    intro t e operation q hopens
    cases hopens <;> exact absurd trivial hc
  refused := by
    intro t e operation hopens
    cases hopens <;> exact absurd trivial hc
  stopped := fun _ => ⟨h, fun hprograms => absurd hprograms hc⟩
  looks := fun _ => h
  full := by
    rintro t input p chip rfl
    exact absurd trivial hc

/-- **Every command**, for every database of chips. -/
theorem runCommand_mirrors (db : Database) (c : Command) (w : World) :
    Ends (runCommand db c) w fun r w' => Mirrors db c w.files w'.files (r = .ok ()) := by
  unfold runCommand
  cases c with
  | listChips vendor => exact mirrors_of_looks id looks_print
  | plan name old new wholeChip restricted =>
    refine Ends.mono (gives_orFail.looks.andThen fun _ _ => looks_runPlan) ?_
    exact fun r w' hfiles => mirrors_of_looks id hfiles
  | verify t input abortOnDenied =>
    refine Ends.mono (gives_orFail.looks.andThen fun _ _ => looks_runVerify) ?_
    exact fun r w' hfiles => mirrors_of_looks id hfiles
  | write t input p =>
    refine Gives.andThen gives_orFail ?_ ?_
    · intro chip w₁ hfiles hchip
      rw [← hfiles]
      exact (runWrite_ends hchip).mono fun _ _ h => h.mirrors trivial
    · intro e w₁ hfiles hnone
      refine Carried.mirrors trivial (.inr ⟨?_, hfiles, nofun⟩)
      rintro ⟨t', e', operation, hopens⟩
      cases hopens with
      | write hchip => exact hnone ⟨_, hchip⟩
  | erase t p =>
    refine Gives.andThen gives_orFail ?_ ?_
    · intro chip w₁ hfiles hchip
      rw [← hfiles]
      exact (runErase_ends hchip).mono fun _ _ h => h.mirrors trivial
    · intro e w₁ hfiles hnone
      refine Carried.mirrors trivial (.inr ⟨?_, hfiles, nofun⟩)
      rintro ⟨t', e', operation, hopens⟩
      cases hopens with
      | erase hchip => exact hnone ⟨_, hchip⟩

/-! ## The whole program -/

/-- The database that the arguments ask for is loaded. -/
def Invocation.load (i : Invocation) : Action Failure Database := do
  match i.database with
  | some path => orFail .database (loadFrom path (← get).files)
  | none => loadDefault

/-- The chips that are loaded from these files. -/
def Invocation.chips (i : Invocation) (files : Files) : Except Failure Database :=
  (i.load { files }).1

theorem looks_load {i : Invocation} : Looks i.load w := by
  unfold Invocation.load
  cases i.database with
  | some path => exact Ends.worldThen gives_orFail.looks
  | none => exact looks_loadDefault

/-- A command as the last part of the program. -/
def finish (c : Command) (db : Database) : Action Failure Unit := fun w =>
  ((runCommand db c w).1.mapError .command, (runCommand db c w).2)

theorem invoke_eq (i : Invocation) : invoke i = i.load >>= fun db =>
    record [.chipsLoaded db.chips.length] >>= fun _ => finish i.command db := by
  unfold invoke Invocation.load
  cases i.database <;> rfl

theorem finish_mirrors (db : Database) (c : Command) (w : World) :
    Ends (finish c db) w fun r w' => Mirrors db c w.files w'.files (r = .ok ()) := by
  have hcommand := runCommand_mirrors db c w
  have hok : ((runCommand db c w).1.mapError Failure.command = .ok ()) =
      ((runCommand db c w).1 = .ok ()) := by
    cases (runCommand db c w).1 <;> simp [Except.mapError]
  unfold Ends finish
  dsimp only
  rw [hok]
  exact hcommand

/-- **The program** loads the chips and does with the files what its command does. -/
theorem invoke_mirrors (i : Invocation) (files : Files) :
    Ends (invoke i) { files } fun r w' =>
      (∀ e, i.chips files = .error e → w'.files = files ∧ r ≠ .ok ()) ∧
      ∀ db, i.chips files = .ok db → Mirrors db i.command files w'.files (r = .ok ()) := by
  have hload : Ends i.load { files } fun r w' => w'.files = files ∧ r = i.chips files :=
    ⟨looks_load, rfl⟩
  rw [invoke_eq]
  refine hload.andThen ?_ ?_
  · intro db w₁ h
    obtain ⟨hfiles, hchips⟩ := h
    rw [← hchips, ← hfiles]
    refine Ends.recordThen ((finish_mirrors db i.command _).mono fun r w₂ hmirrors => ⟨?_, ?_⟩)
    · intro e he
      cases he
    · intro db' hdb
      cases hdb
      exact hmirrors
  · intro e w₁ h
    obtain ⟨hfiles, hchips⟩ := h
    rw [← hchips]
    constructor
    · intro e' _
      exact ⟨hfiles, fun hok => by cases hok⟩
    · intro db hdb
      cases hdb

/-- The program leaves the files that the command leaves, and its exit code tells of success. -/
theorem run_of_invocation {args : List String} {i : Invocation} (files : Files)
    (h : Invocation.ofArguments args = .ok i) :
    (run args files).files = (invoke i { files }).2.files ∧
      ((run args files).exitCode = 0 ↔ (invoke i { files }).1 = .ok ()) := by
  unfold run
  rw [h]
  dsimp only
  split
  · rename_i w hrun
    rw [hrun]
    exact ⟨rfl, iff_of_true rfl rfl⟩
  · rename_i e w hrun
    rw [hrun]
    have hcode : e.exitCode ≠ 0 := by cases e <;> simp [Failure.exitCode]
    exact ⟨rfl, iff_of_false hcode nofun⟩

/-- **The file of the emulated chip mirrors the chip.** Every command does with the files what it
should, for every database of chips; and so does the program for all arguments, with the chips that
it loads. Without a command or without chips it changes no file. -/
theorem files_mirrored :
    (∀ db c w, Ends (runCommand db c) w fun r w' => Mirrors db c w.files w'.files (r = .ok ())) ∧
    ∀ args files,
      (∀ stop, Invocation.ofArguments args = .error stop → (run args files).files = files) ∧
      ∀ i, Invocation.ofArguments args = .ok i →
        (∀ e, i.chips files = .error e →
          (run args files).files = files ∧ (run args files).exitCode ≠ 0) ∧
        ∀ db, i.chips files = .ok db →
          Mirrors db i.command files (run args files).files ((run args files).exitCode = 0) := by
  refine ⟨runCommand_mirrors, fun args files => ⟨?_, fun i hi => ?_⟩⟩
  · intro stop hstop
    unfold run
    rw [hstop]
    cases stop <;> rfl
  · obtain ⟨hfiles, hcode⟩ := run_of_invocation files hi
    obtain ⟨hunloaded, hmirrors⟩ := invoke_mirrors i files
    rw [hfiles, hcode]
    refine ⟨fun e he => ?_, hmirrors⟩
    obtain ⟨hsame, hfailed⟩ := hunloaded e he
    exact ⟨hsame, mt hcode.1 hfailed⟩

/-- A file with an image for the small chip, and none for the chip itself. -/
def freshFiles : Files := { entries := [(["input"], smallImage)] }

/-- Writes this image to the small chip. -/
def writeFresh : Command :=
  .write ⟨"S8", "flash", [], []⟩ "input" ⟨⟨false, none⟩, {}, false, .chip⟩

theorem names_fresh : Files.names "flash" = ["flash"] ∧ Files.names "input" = ["input"] := by
  unfold Files.names String.splitOn
  rw [if_neg (by decide), if_neg (by decide)]
  constructor
  all_goals
    -- one step for each letter
    iterate 5
      rw [String.splitOnAux, if_neg (by decide +kernel), if_neg (by decide +kernel)]
    rw [String.splitOnAux, if_pos (by decide +kernel)]
    rfl

theorem locate_fresh : freshFiles.locate "flash" = .ok ["flash"] ∧
    freshFiles.locate "input" = .ok ["input"] := by
  obtain ⟨hflash, hinput⟩ := names_fresh
  refine ⟨Files.locate_eq_ok_iff.2 ?_, Files.locate_eq_ok_iff.2 ?_⟩
  · rw [hflash]
    decide +kernel
  · rw [hinput]
    decide +kernel

/-- The chip starts erased, and its file is there afterwards. -/
theorem files_mirrored_fresh :
    (runCommand ⟨[.small]⟩ writeFresh { files := freshFiles }).1 = .ok () ∧
    (runCommand ⟨[.small]⟩ writeFresh { files := freshFiles }).2.files.read "flash" =
      .ok smallImage := by
  have hchip : resolveChip ⟨[.small]⟩ "S8" = .ok .small := by decide +kernel
  have hinput : Provides freshFiles .small "input" smallImage :=
    ⟨Files.read_eq_ok_iff.2 ⟨_, locate_fresh.2, by decide⟩, rfl⟩
  have hmissing : freshFiles.existsPath "flash" = false := by
    unfold Files.existsPath Files.isFilePath Files.isDirectoryPath Files.read
    rw [locate_fresh.1]
    decide +kernel
  have hblank : Target.Holds ⟨"S8", "flash", [], []⟩ freshFiles .small (Image.blank 8 255) := by
    unfold Target.Holds
    rw [hmissing]
    rfl
  have hwritable : freshFiles.Writable "flash" ["flash"] :=
    ⟨locate_fresh.1, by decide, by decide +kernel⟩
  have hmirrors := files_mirrored.1 ⟨[.small]⟩ writeFresh { files := freshFiles }
  obtain ⟨-, -, hsuccess⟩ := hmirrors.mirrored (.write hchip hinput .none hblank) hwritable
  have hok := hsuccess.2 ⟨⟨2, 5, 0, 0, 3, 5, 0, true, true⟩, by decide +kernel⟩
  obtain ⟨image, himage, -, hread⟩ :=
    hmirrors.full rfl hchip (by decide) rfl rfl rfl hok
  obtain rfl := Except.ok.inj (hinput.1.symm.trans himage)
  exact ⟨hok, hread⟩

end Reflash.CommandLine
