import Reflash.Proofs.Plan.Legality

/-!
# Absent erase functions

An erase function that has no blocks is as good as absent. The check of a chip goes by what all of
its regions cover, while a function counts as usable by its first region, and only usable functions
are asked for erasers.

* `Sound.usable_iff`: on a chip without defects, a usable function covers the chip, and its first
  region is not empty.
* `selectErasers_absent`: so the two agree, unless a region without blocks stands in front.
* `selectErasers_headless`: a function that covers the chip and is not found.
-/

namespace Reflash

variable {chip : Chip} {f : EraseFunction}

namespace EraseFunction

/-- The chip executes the function, and it has blocks. -/
def Present (f : EraseFunction) : Prop := f.supported = true ∧ f.total ≠ 0

instance (f : EraseFunction) : Decidable f.Present :=
  inferInstanceAs (Decidable (f.supported = true ∧ f.total ≠ 0))

/-- The first region has no blocks, whatever follows. -/
def Headless (f : EraseFunction) : Prop := ∃ r ∈ f.regions.head?, r.count = 0

theorem usable_iff :
    f.usable = true ↔ f.supported = true ∧ ∃ r ∈ f.regions.head?, 0 < r.count := by
  unfold usable
  cases f.regions.head? <;> simp

end EraseFunction

/-- The check of the chip and the selection, which came to `r`, take the same functions for
absent. -/
structure Chip.Agrees (chip : Chip) (r : Except FlashError (List Eraser)) : Prop where
  /-- Nothing is found exactly if no function is present. -/
  found : r = .error .noEraser ↔ ¬∃ f ∈ chip.eraseFunctions, f.Present
  /-- The usable functions are the supported ones that cover the chip. -/
  usable : ∀ f ∈ chip.eraseFunctions,
    (f.usable = true ↔ f.supported = true ∧ f.total = chip.totalSize)

/-- On a chip without defects, functions are present that cover it. -/
theorem Chip.Sound.present_iff (hs : chip.Sound) (hf : f ∈ chip.eraseFunctions) :
    f.Present ↔ f.supported = true ∧ f.total = chip.totalSize := by
  refine and_congr_right fun _ => ⟨(hs.total f hf).resolve_left, fun h => ?_⟩
  have := hs.size_pos
  omega

/-- **A function is usable** exactly if it is present and its first region has blocks. -/
theorem Chip.Sound.usable_iff (hs : chip.Sound) (hf : f ∈ chip.eraseFunctions) :
    f.usable = true ↔ f.Present ∧ ¬f.Headless := by
  constructor
  · intro husable
    obtain ⟨-, -, -, -, htotal⟩ := hs.first hf husable
    obtain ⟨hsupported, first, hfirst, hcount⟩ := EraseFunction.usable_iff.1 husable
    refine ⟨(hs.present_iff hf).2 ⟨hsupported, htotal⟩, ?_⟩
    rintro ⟨first', hfirst', hnone⟩
    obtain rfl := Option.some.inj (hfirst.symm.trans hfirst')
    omega
  · rintro ⟨⟨hsupported, htotal⟩, hhead⟩
    refine EraseFunction.usable_iff.2 ⟨hsupported, ?_⟩
    cases hfirst : f.regions.head? with
    | none =>
      -- without regions nothing is covered
      rw [List.head?_eq_none_iff] at hfirst
      simp [EraseFunction.total, hfirst] at htotal
    | some r => exact ⟨r, rfl, Nat.pos_of_ne_zero fun hnone => hhead ⟨r, hfirst, hnone⟩⟩

variable {σ : Type}

/-- Without a filter, nothing is found exactly if no function is usable. -/
theorem selectErasers_all (hs : chip.Sound) (extent : ℕ) (s : Session σ) :
    Ends (selectErasers chip extent EraserFilter.all) s fun r _ =>
      (r = .error .noEraser ↔ ¬∃ f ∈ chip.eraseFunctions, f.usable = true) ∧
      (r ≠ .error .noEraser → ∃ es, r = .ok es ∧ es ≠ []) := by
  have hvouches : EraserFilter.all.Vouches chip (fun _ : σ => True) fun _ => True :=
    vouches_all chip _
  have hends : Ends (selectErasers chip extent EraserFilter.all) s _ :=
    selectErasers_ends hvouches trivial
  by_cases h : ∃ f ∈ chip.eraseFunctions, f.usable = true
  · obtain ⟨f, hf, husable⟩ := h
    obtain ⟨i, hget⟩ := List.mem_iff_getElem?.1 hf
    have hi : i < Chip.maxEraseFunctions :=
      (List.getElem?_eq_some_iff.1 hget).1.trans_le hs.few
    obtain ⟨first, hfirst, hsize, -⟩ := hs.first hf husable
    obtain ⟨o, ho, -⟩ := exists_ofFunction i (List.mem_of_head? hfirst) hsize
    refine ((selectErasers_found hvouches hi hget husable (admits_all chip _ i)
      (List.ne_nil_of_mem ho) trivial).and hends).mono ?_
    rintro _ _ ⟨⟨es, rfl⟩, -, hes⟩
    exact ⟨iff_of_false nofun (not_not_intro ⟨f, hf, husable⟩),
      fun _ => ⟨es, rfl, (hes es rfl).1⟩⟩
  · refine ((selectErasers_answers (answers_all chip fun _ => True) (s := s) trivial).and
      hends).mono ?_
    rintro r s' ⟨⟨-, hr⟩, -, hes⟩
    -- a selection would be made of usable functions
    have hnot : ∀ es, r ≠ .ok es := by
      rintro es rfl
      obtain ⟨hne, -, hoffers⟩ := hes es rfl
      obtain ⟨e, he⟩ := List.exists_mem_of_ne_nil es hne
      obtain ⟨-, -, f, -, hget, husable, -⟩ := hoffers e he
      exact h ⟨f, List.mem_of_getElem? hget, husable⟩
    have hnone : r = .error .noEraser := by
      unfold Candidates.selection at hr
      split at hr
      · exact absurd hr (hnot _)
      · exact absurd hr (hnot _)
      · exact hr
    exact ⟨iff_of_true hnone h, fun hne => absurd hnone hne⟩

/-- **Which functions are absent.** On a chip that passes its check, nothing is found for an erase
exactly if every function that is present has an empty region in front, and otherwise there are
erasers. The check and the selection agree exactly if no function that is present has one. -/
theorem selectErasers_absent (h : chip.validate = .ok ()) (extent : ℕ) (s : Session σ) :
    Ends (selectErasers chip extent EraserFilter.all) s fun r _ =>
      (r = .error .noEraser ↔ ∀ f ∈ chip.eraseFunctions, f.Present → f.Headless) ∧
      (r ≠ .error .noEraser → ∃ es, r = .ok es ∧ es ≠ []) ∧
      (∀ f ∈ chip.eraseFunctions, (f.usable = true ↔
        f.supported = true ∧ f.total = chip.totalSize ∧ ¬f.Headless)) ∧
      (chip.Agrees r ↔ ∀ f ∈ chip.eraseFunctions, f.Present → ¬f.Headless) := by
  have hs := Chip.validate_iff.1 h
  refine (selectErasers_all hs extent s).mono ?_
  rintro r s' ⟨hnone, hsome⟩
  have husable : ∀ f ∈ chip.eraseFunctions, (f.usable = true ↔
      f.supported = true ∧ f.total = chip.totalSize ∧ ¬f.Headless) := by
    intro f hf
    rw [hs.usable_iff hf, hs.present_iff hf, and_assoc]
  refine ⟨?_, hsome, husable, fun hagrees f hf hpresent => ?_, fun hhead => ⟨?_, ?_⟩⟩
  · rw [hnone]
    push Not
    refine forall₂_congr fun f hf => ?_
    rw [ne_eq, hs.usable_iff hf]
    tauto
  · have := (hagrees.usable f hf).2 ((hs.present_iff hf).1 hpresent)
    exact ((husable f hf).1 this).2.2
  · rw [hnone]
    refine not_congr (exists_congr fun f => and_congr_right fun hf => ?_)
    rw [hs.usable_iff hf]
    exact ⟨And.left, fun hpresent => ⟨hpresent, hhead f hf hpresent⟩⟩
  · intro f hf
    rw [hs.usable_iff hf, ← hs.present_iff hf]
    exact ⟨And.left, fun hpresent => ⟨hpresent, hhead f hf hpresent⟩⟩

/-- A function of eight bytes with a region without blocks in front. -/
def EraseFunction.headless : EraseFunction := ⟨true, [⟨0, 0⟩, ⟨4, 2⟩]⟩

/-- A chip with this function alone. -/
def Chip.hollow : Chip := { Chip.small with eraseFunctions := [.headless] }

/-- A chip with this function and one that has all of its blocks. -/
def Chip.mixed : Chip := { Chip.small with eraseFunctions := [.headless, .uniform 2 4] }

/-- Erasers are found, although the check of the chip and the selection do not agree. -/
theorem selectErasers_absent_mixed :
    Chip.mixed.validate = .ok () ∧
    (∃ es, (selectErasers Chip.mixed 8 EraserFilter.all (⟨(), #[], #[]⟩ : Session Unit)).1 =
      .ok es ∧ es ≠ []) ∧
    ¬Chip.mixed.Agrees
      (selectErasers Chip.mixed 8 EraserFilter.all (⟨(), #[], #[]⟩ : Session Unit)).1 := by
  have hvalid : Chip.mixed.validate = .ok () := rfl
  obtain ⟨-, hsome, -, hagrees⟩ :=
    selectErasers_absent hvalid 8 (⟨(), #[], #[]⟩ : Session Unit)
  refine ⟨hvalid, hsome nofun, fun h => ?_⟩
  exact hagrees.1 h .headless (by simp [Chip.mixed]) (by decide) ⟨⟨0, 0⟩, rfl, rfl⟩

/-- A function that the chip executes and that covers all of it is neither usable nor found. -/
theorem selectErasers_headless :
    Chip.hollow.validate = .ok () ∧ Chip.hollow.eraseFunctions = [.headless] ∧
    EraseFunction.headless.supported = true ∧
    EraseFunction.headless.total = Chip.hollow.totalSize ∧
    EraseFunction.headless.usable = false ∧
    (selectErasers Chip.hollow 8 EraserFilter.all (⟨(), #[], #[]⟩ : Session Unit)).1 =
      .error .noEraser :=
  ⟨rfl, rfl, rfl, rfl, rfl, rfl⟩

end Reflash
