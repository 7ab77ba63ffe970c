import Reflash.CommandLine.Run
import Reflash.Proofs.Computation
import Reflash.Proofs.Files
import Reflash.Proofs.Image

/-!
# Parts of commands

What the parts of a command read from the files and do with them.

* `Provides`, `Target.Holds`: the images and contents that a command finds.
* `Gives`: an action that changes no file and gives what it finds there.
* `saveChip_ends`: the only part that changes a file.
* `Looks`: the commands that have no such part.
-/

namespace Reflash.CommandLine

variable {ε α β : Type} {db : Database} {fs : Files} {chip : Chip} {t : Target} {path : String}
  {image memory : Image} {w : World}

/-! ## What is found in the files -/

/-- The file has an image of the size of the chip. -/
def Provides (fs : Files) (chip : Chip) (path : String) (image : Image) : Prop :=
  fs.read path = .ok image ∧ image.size = chip.totalSize

/-- The contents with which the chip is opened: those of its file, or all erased if there is no
file. -/
def Target.Holds (t : Target) (fs : Files) (chip : Chip) (memory : Image) : Prop :=
  if fs.existsPath t.flash then Provides fs chip t.flash memory
  else memory = Image.blank chip.totalSize chip.erasedValue

/-- The emulated chip with these contents. -/
def Target.emulator (t : Target) (chip : Chip) (memory : Image) : Emulator where
  config := { chip, protectedRanges := t.protectedRanges, restricted := t.restricted }
  memory := memory

theorem resolveChip_eq_ok_iff {name : String} :
    resolveChip db name = .ok chip ↔ db.findExact? name = some chip ∧ chip.validate = .ok () := by
  unfold resolveChip
  cases db.findExact? name with
  | none => simp
  | some c =>
    dsimp only
    split
    · rename_i hvalid
      simp only [Except.ok.injEq, Option.some.injEq]
      exact ⟨fun h => ⟨h, h ▸ hvalid⟩, And.left⟩
    · rename_i defect hdefect
      refine iff_of_false nofun ?_
      rintro ⟨⟨⟩, hvalid⟩
      rw [hdefect] at hvalid
      cases hvalid

theorem Provides.unique {image' : Image} (h : Provides fs chip path image)
    (h' : Provides fs chip path image') : image = image' :=
  Except.ok.inj (h.1.symm.trans h'.1)

theorem Target.Holds.unique {memory' : Image} (h : t.Holds fs chip memory)
    (h' : t.Holds fs chip memory') : memory = memory' := by
  unfold Target.Holds at h h'
  split at h
  · rename_i hexists
    rw [if_pos hexists] at h'
    exact h.unique h'
  · rename_i hmissing
    rw [if_neg hmissing] at h'
    exact h.trans h'.symm

theorem Target.Holds.size (h : t.Holds fs chip memory) : memory.size = chip.totalSize := by
  unfold Target.Holds at h
  split at h
  · exact h.2
  · exact h ▸ Image.size_blank

theorem unique_reference {file : Option String} {reference reference' : Option Image}
    (h : Option.Rel (Provides fs chip) file reference)
    (h' : Option.Rel (Provides fs chip) file reference') : reference = reference' := by
  cases h with
  | none =>
    cases h'
    rfl
  | some h =>
    cases h' with
    | some h' => rw [h.unique h']

/-! ## Actions -/

/-- The action changes no file, and gives a value exactly if `P` has it. -/
def Gives (x : Action ε α) (w : World) (P : α → Prop) : Prop :=
  Ends x w fun r w' => w'.files = w.files ∧ ∀ a, r = .ok a ↔ P a

/-- What follows on an action that changes no file. -/
theorem Gives.andThen {x : Action ε α} {f : α → Action ε β} {P : α → Prop}
    {Q : Except ε β → World → Prop} (h : Gives x w P)
    (hok : ∀ a w', w'.files = w.files → P a → Ends (f a) w' Q)
    (hstop : ∀ e w', w'.files = w.files → (¬∃ a, P a) → Q (.error e) w') :
    Ends (x >>= f) w Q := by
  refine Ends.andThen h ?_ ?_
  · rintro a w' ⟨hfiles, hP⟩
    exact hok a w' hfiles ((hP a).1 rfl)
  · rintro e w' ⟨hfiles, hP⟩
    refine hstop e w' hfiles ?_
    rintro ⟨a, ha⟩
    cases (hP a).2 ha

theorem Ends.worldThen {f : World → Action ε β} {Q : Except ε β → World → Prop}
    (h : Ends (f w) w Q) : Ends (get >>= f) w Q := h

theorem Ends.recordThen {rs : List LogRecord} {f : Unit → Action ε β} {Q : Except ε β → World → Prop}
    (h : Ends (f ()) { w with log := w.log ++ rs } Q) : Ends (record rs >>= f) w Q := h

/-- The value that was given is the only one with `P`. -/
theorem ok_iff {P : α → Prop} {a : α} (ha : P a) (hunique : ∀ b, P b → b = a) (b : α) :
    (.ok a : Except ε α) = .ok b ↔ P b := by
  constructor
  · rintro ⟨⟩
    exact ha
  · intro hb
    rw [hunique b hb]

/-- Nothing was given, and nothing has `P`. -/
theorem error_iff {P : α → Prop} {e : ε} (hnone : ∀ a, ¬P a) (b : α) :
    (.error e : Except ε α) = .ok b ↔ P b := iff_of_false nofun (hnone b)

theorem gives_orFail {ε' : Type} {f : ε' → ε} {x : Except ε' α} :
    Gives (orFail f x) w fun a => x = .ok a := by
  cases x with
  | ok a => exact ⟨rfl, ok_iff rfl fun b hb => (Except.ok.inj hb).symm⟩
  | error e => exact ⟨rfl, error_iff fun a => nofun⟩

/-- An image is read exactly if the file provides it. -/
theorem gives_readImageFile : Gives (readImageFile path chip) w (Provides w.files chip path) := by
  unfold readImageFile
  refine Ends.worldThen (Gives.andThen gives_orFail ?_ ?_)
  · intro image w₁ hfiles hread
    dsimp only
    split
    · rename_i hsize
      refine ⟨hfiles, error_iff fun image' h => hsize ?_⟩
      rw [Except.ok.inj (hread.symm.trans h.1)]
      exact h.2
    · rename_i hsize
      have himage : Provides w.files chip path image := ⟨hread, not_not.1 hsize⟩
      exact ⟨hfiles, ok_iff himage fun image' h => h.unique himage⟩
  · intro e w₁ hfiles hnone
    exact ⟨hfiles, error_iff fun image h => hnone ⟨image, h.1⟩⟩

theorem gives_readReference {file : Option String} :
    Gives (readReference file chip) w (Option.Rel (Provides w.files chip) file) := by
  unfold readReference
  cases file with
  | none => exact ⟨rfl, ok_iff .none fun reference h => unique_reference h .none⟩
  | some path =>
    refine Gives.andThen gives_readImageFile ?_ ?_
    · intro image w₁ hfiles himage
      exact ⟨hfiles, ok_iff (.some himage) fun reference h => unique_reference h (.some himage)⟩
    · intro e w₁ hfiles hnone
      refine ⟨hfiles, error_iff fun reference h => ?_⟩
      cases h with
      | some h => exact hnone ⟨_, h⟩

/-- The chip is opened exactly if its contents are known. -/
theorem gives_openChip : Gives (openChip chip t) w fun e =>
    ∃ memory, t.Holds w.files chip memory ∧ e = t.emulator chip memory := by
  have hunique : ∀ {memory : Image}, t.Holds w.files chip memory → ∀ e : Emulator,
      (∃ memory', t.Holds w.files chip memory' ∧ e = t.emulator chip memory') →
        e = t.emulator chip memory := by
    rintro memory hmemory e ⟨memory', hmemory', rfl⟩
    rw [hmemory'.unique hmemory]
  unfold openChip
  refine Ends.worldThen ?_
  dsimp only
  split
  · rename_i hexists
    have hholds : ∀ memory, t.Holds w.files chip memory ↔
        Provides w.files chip t.flash memory := by
      intro memory
      rw [Target.Holds, if_pos hexists]
    refine Gives.andThen gives_readImageFile ?_ ?_
    · intro memory w₁ hfiles hmemory
      -- contents of the size of the chip leave nothing erased
      have hsize : memory.size = (Image.blank chip.totalSize chip.erasedValue).size :=
        hmemory.2.trans Image.size_blank.symm
      have hopened : Emulator.withData
          { chip, protectedRanges := t.protectedRanges, restricted := t.restricted } memory =
            t.emulator chip memory := by
        unfold Emulator.withData Target.emulator
        rw [Image.overlay_all hsize]
      rw [hopened]
      have hmemory' := (hholds memory).2 hmemory
      exact ⟨hfiles, ok_iff ⟨memory, hmemory', rfl⟩ (hunique hmemory')⟩
    · intro e w₁ hfiles hnone
      refine ⟨hfiles, error_iff fun e h => ?_⟩
      obtain ⟨memory, hmemory, -⟩ := h
      exact hnone ⟨memory, (hholds memory).1 hmemory⟩
  · rename_i hmissing
    have hblank : t.Holds w.files chip (Image.blank chip.totalSize chip.erasedValue) := by
      rw [Target.Holds, if_neg hmissing]
    exact ⟨rfl, ok_iff ⟨_, hblank, rfl⟩ (hunique hblank)⟩

/-- An operation on the emulated chip is printed and logged, nothing more. -/
theorem gives_runOnChip {e : Emulator} {operation : Task Emulator OperationError α} :
    Gives (runOnChip e operation) w fun r =>
      r = ((operation ⟨e, #[], #[]⟩).1, (operation ⟨e, #[], #[]⟩).2.device) :=
  ⟨rfl, ok_iff rfl fun _ h => h⟩

theorem gives_conclude {r : Except OperationError α} :
    Gives (discard (conclude r) : Action CommandError Unit) w fun _ => ∃ a, r = .ok a := by
  cases r with
  | ok a => exact ⟨rfl, fun _ => iff_of_true rfl ⟨a, rfl⟩⟩
  | error e =>
    unfold Gives Ends
    rw [discard_run]
    unfold conclude
    dsimp only
    split
    · exact ⟨rfl, fun _ => iff_of_false nofun nofun⟩
    · exact ⟨rfl, fun _ => iff_of_false nofun nofun⟩

/-- The memory is stored where the file can be written. -/
theorem saveChip_ends {e : Emulator} : Ends (saveChip t e) w fun r w' =>
    (∃ p, w.files.Writable t.flash p ∧ r = .ok () ∧ w'.files = w.files.set p e.memory) ∨
      (¬∃ p, w.files.Writable t.flash p) ∧ r ≠ .ok () ∧ w'.files = w.files := by
  unfold saveChip
  refine Ends.worldThen (Gives.andThen gives_orFail ?_ ?_)
  · intro files w₁ _ hwrite
    obtain ⟨p, hp, rfl⟩ := Files.write_eq_ok_iff.1 hwrite
    exact .inl ⟨p, hp, rfl, rfl⟩
  · intro e w₁ hfiles hnone
    refine .inr ⟨?_, nofun, hfiles⟩
    rintro ⟨p, hp⟩
    exact hnone ⟨_, Files.write_eq_ok_iff.2 ⟨p, hp, rfl⟩⟩

/-! ## Commands that only look -/

/-- The action changes no file. -/
def Looks (x : Action ε α) (w : World) : Prop := Ends x w fun _ w' => w'.files = w.files

theorem Gives.looks {x : Action ε α} {P : α → Prop} (h : Gives x w P) : Looks x w :=
  Ends.mono h fun _ _ h => h.1

theorem Looks.andThen {x : Action ε α} {f : α → Action ε β} (h : Looks x w)
    (hf : ∀ a w', Looks (f a) w') : Looks (x >>= f) w :=
  Ends.andThen h (fun a w' hfiles => Ends.mono (hf a w') fun _ _ h' => h'.trans hfiles)
    fun _ _ hfiles => hfiles

theorem looks_print {text : String} : Looks (print text : Action ε Unit) w := rfl

theorem looks_record {rs : List LogRecord} : Looks (record rs : Action ε Unit) w := rfl

theorem looks_runPlan {old new : String} {wholeChip : Bool} {restricted : List ℕ} :
    Looks (runPlan chip old new wholeChip restricted) w := by
  unfold runPlan
  refine gives_readImageFile.looks.andThen fun old w₁ => ?_
  refine gives_readImageFile.looks.andThen fun new w₂ => ?_
  refine looks_record.andThen fun _ w₃ => ?_
  exact gives_orFail.looks.andThen fun plan w₄ => looks_print

theorem looks_runVerify {input : String} {abortOnDenied : Bool} :
    Looks (runVerify chip t input abortOnDenied) w := by
  unfold runVerify
  refine gives_readImageFile.looks.andThen fun expected w₁ => ?_
  refine gives_openChip.looks.andThen fun e w₂ => ?_
  refine gives_runOnChip.looks.andThen fun r w₃ => ?_
  exact gives_orFail.looks.andThen fun _ w₄ => looks_print

theorem looks_loadDirectories {paths : List String} :
    Looks (loadDirectories paths db : Action ε Database) w := by
  induction paths generalizing db w with
  | nil => exact rfl
  | cons path paths ih =>
    unfold loadDirectories
    refine Ends.worldThen ?_
    dsimp only
    split
    · cases (Database.loadDirectory w.files path db).1 with
      | ok n => exact Looks.andThen looks_record fun _ _ => ih
      | error e => exact Looks.andThen looks_record fun _ _ => ih
    · exact ih

theorem looks_loadDefault : Looks (loadDefault : Action ε Database) w := by
  unfold loadDefault
  refine looks_loadDirectories.andThen fun db w₁ => ?_
  split
  · exact Looks.andThen looks_record fun _ _ => rfl
  · exact rfl

end Reflash.CommandLine
