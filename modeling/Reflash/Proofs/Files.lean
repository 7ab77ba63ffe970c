import Mathlib
import Reflash.Files

/-!
# Files that are written

What paths lead to after a file was replaced or created.

* `write_eq_ok_iff`: where a file can be written.
* `walk_set`, `locate_set`: a way that could be gone before can still be gone.
* `read_set`: a file that could be read before can still be read.
* `Writable.read_set`: what was written is read back.
-/

namespace Reflash.Files

variable {fs : Files} {p q r : Place} {path : String} {names : List String} {m m' : Image}

/-- The path leads to a file that can be replaced, or to a place where one can be created. -/
structure Writable (fs : Files) (path : String) (p : Place) : Prop where
  leads : fs.locate path = .ok p
  file : fs.isDirectory p = false
  slash : path.endsWith "/" = false

/-- **A file is written** at the place that its path leads to. -/
theorem write_eq_ok_iff {fs' : Files} :
    fs.write path m = .ok fs' ↔ ∃ p, fs.Writable path p ∧ fs' = fs.set p m := by
  unfold write
  cases hlocate : fs.locate path with
  | error e =>
    refine iff_of_false nofun ?_
    rintro ⟨p, hp, -⟩
    rw [hp.leads] at hlocate
    cases hlocate
  | ok p =>
    simp only [bind, Except.bind]
    constructor
    · intro h
      split at h
      · cases h
      · rename_i hfile
        obtain ⟨hdir, hslash⟩ := Bool.or_eq_false_iff.1 (Bool.eq_false_iff.2 hfile)
        cases h
        exact ⟨p, ⟨hlocate, hdir, hslash⟩, rfl⟩
    · rintro ⟨q, hq, rfl⟩
      obtain rfl := Except.ok.inj (hlocate.symm.trans hq.leads)
      rw [hq.file, hq.slash]
      rfl

theorem read_eq_ok_iff :
    fs.read path = .ok m ↔ ∃ p, fs.locate path = .ok p ∧ fs.at? p = some m := by
  unfold read
  cases fs.locate path with
  | error e => simp [bind, Except.bind]
  | ok p =>
    simp only [bind, Except.bind, Except.ok.injEq, exists_eq_left']
    cases fs.at? p with
    | some contents => simp [pure, Except.pure]
    | none =>
      dsimp only
      split <;> simp [throw, throwThe, MonadExceptOf.throw]

/-! ## Ways after a file was set -/

theorem set_workingDirectory : (fs.set p m).workingDirectory = fs.workingDirectory := by
  unfold set
  split <;> rfl

theorem set_directories : (fs.set p m).directories = fs.directories := by
  unfold set
  split <;> rfl

theorem mem_places_set (h : q ∈ fs.places) : q ∈ (fs.set p m).places := by
  have hentries : ∀ q ∈ fs.entries.map (·.1), q ∈ (fs.set p m).entries.map (·.1) := by
    intro q hq
    obtain ⟨⟨q, old⟩, hmem, rfl⟩ := List.mem_map.1 hq
    unfold set
    split
    · refine List.mem_map.2 ⟨if q = p then (q, m) else (q, old), ?_, by split <;> rfl⟩
      exact List.mem_map.2 ⟨(q, old), hmem, rfl⟩
    · exact List.mem_map.2 ⟨(q, old), List.mem_append_left _ hmem, rfl⟩
  unfold places at h ⊢
  rw [set_workingDirectory, set_directories]
  simp only [List.cons_append, List.mem_cons, List.mem_append] at h ⊢
  exact h.imp_right fun h => h.imp_right (hentries q)

/-- A directory is not the file that was set, and it stays a directory. -/
theorem isDirectory_set (hp : fs.isDirectory p = false) (hq : fs.isDirectory q = true) :
    (fs.set p m).at? q = fs.at? q ∧ (fs.set p m).isDirectory q = true := by
  have hne : q ≠ p := by
    rintro rfl
    rw [hp] at hq
    cases hq
  have hat : (fs.set p m).at? q = fs.at? q := by rw [at?_set, if_neg hne]
  refine ⟨hat, ?_⟩
  unfold isDirectory at hq ⊢
  rw [hat]
  simp only [Bool.or_eq_true, Bool.and_eq_true, List.any_eq_true] at hq ⊢
  exact hq.imp_right fun ⟨hnone, x, hx, hprefix⟩ => ⟨hnone, x, mem_places_set hx, hprefix⟩

/-- **A way that could be gone** can still be gone. -/
theorem walk_set (hp : fs.isDirectory p = false) (h : fs.walk q names = .ok r) :
    (fs.set p m).walk q names = .ok r := by
  induction names generalizing q with
  | nil => exact h
  | cons name names ih =>
    unfold walk at h ⊢
    split at h
    · cases h
    · rename_i hfree
      split at h
      · cases h
      · rename_i hdir
        rw [Bool.not_eq_true', Bool.not_eq_false] at hdir
        obtain ⟨hat, hdir'⟩ := isDirectory_set (m := m) hp hdir
        rw [hat, if_neg hfree, hdir', Bool.not_true, if_neg Bool.false_ne_true]
        split_ifs at h ⊢ with hdot hup hlong
        · exact ih h
        · exact ih h
        · exact ih h

theorem locate_eq_ok_iff : fs.locate path = .ok p ↔
    path.isEmpty = false ∧ path.utf8ByteSize ≤ maxPathBytes ∧
      fs.walk (fs.origin path) (Files.names path) = .ok p ∧
      (path.endsWith "/" = true → fs.at? p = none) := by
  unfold locate
  simp only [bind, Except.bind, pure, Except.pure, throw, throwThe, MonadExceptOf.throw]
  cases fs.walk (fs.origin path) (Files.names path) with
  | error e => split_ifs <;> simp
  | ok q =>
    dsimp only
    split_ifs with hempty hlong hslash
    · simp [hempty]
    · simp [hlong]
    · rw [Bool.and_eq_true, Option.isSome_iff_ne_none] at hslash
      refine iff_of_false nofun ?_
      rintro ⟨-, -, ⟨⟩, hnone⟩
      exact hslash.2 (hnone hslash.1)
    · rw [Bool.and_eq_true, Option.isSome_iff_ne_none, not_and_not_right] at hslash
      constructor
      · rintro ⟨⟩
        exact ⟨Bool.eq_false_iff.2 hempty, Nat.not_lt.1 hlong, rfl, hslash⟩
      · exact fun h => h.2.2.1

/-- **A place that a path leads to** is still there, unless it is asked to be a directory and is a
file now. -/
theorem locate_set (hp : fs.isDirectory p = false) (h : fs.locate path = .ok q)
    (hq : q = p → path.endsWith "/" = false) : (fs.set p m).locate path = .ok q := by
  obtain ⟨hempty, hlong, hwalk, hslash⟩ := locate_eq_ok_iff.1 h
  have horigin : (fs.set p m).origin path = fs.origin path := by
    unfold origin
    rw [set_workingDirectory]
  refine locate_eq_ok_iff.2 ⟨hempty, hlong, horigin ▸ walk_set hp hwalk, fun hends => ?_⟩
  rw [at?_set, if_neg fun heq => Bool.false_ne_true ((hq heq).symm.trans hends)]
  exact hslash hends

/-- **A file that could be read** can still be read, and only the one that was set is another. -/
theorem read_set (hp : fs.isDirectory p = false) (h : fs.read path = .ok m') :
    ∃ q, fs.locate path = .ok q ∧ (fs.set p m).read path = .ok (if q = p then m else m') := by
  obtain ⟨q, hq, hat⟩ := read_eq_ok_iff.1 h
  refine ⟨q, hq, read_eq_ok_iff.2 ⟨q, locate_set hp hq fun _ => ?_, ?_⟩⟩
  · -- a file is no directory
    rw [Bool.eq_false_iff]
    intro hends
    rw [(locate_eq_ok_iff.1 hq).2.2.2 hends] at hat
    cases hat
  · rw [at?_set, hat]
    split <;> rfl

/-- **What was written** is read back. -/
theorem Writable.read_set (h : fs.Writable path p) : (fs.set p m).read path = .ok m :=
  read_eq_ok_iff.2 ⟨p, locate_set h.file h.leads fun _ => h.slash, by rw [at?_set, if_pos rfl]⟩

end Reflash.Files
