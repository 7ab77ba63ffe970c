import Reflash.Proofs.Chip

/-!
# What is selected

More about the selected erasers than that they are nested and offered by the chip.

* `selectErasers_covers`: if a region of an admitted function reaches the extent, every
  selected region does.
* `selectErasers_leads`: no selected region covers less than the first one of its function.
* `selectErasers_found`: a function that the filter admits is enough for a selection.
* `selectErasers_answers`: what is selected depends only on what the filter answers.
-/

namespace Reflash

variable {σ : Type} {chip : Chip} {extent : ℕ} {filter : EraserFilter σ} {I : σ → Prop}
  {A : ℕ → Prop} {s : Session σ} {c : Candidates} {offers : List Coverage} {i : ℕ}
  {f : EraseFunction} {e : Eraser} {es : List Eraser}

namespace Chip

/-- The region of the eraser covers the extent. -/
def Covers (chip : Chip) (extent : ℕ) (e : Eraser) : Prop :=
  ∃ f r, chip.eraseFunctions[e.function]? = some f ∧ f.regions[e.region]? = some r ∧
    r.size = e.blockSize ∧ extent ≤ r.total

/-- The region of the eraser covers no less than the first one of its function, which is usable. -/
def Leads (chip : Chip) (e : Eraser) : Prop :=
  ∃ f r, chip.eraseFunctions[e.function]? = some f ∧ f.usable = true ∧
    f.regions[e.region]? = some r ∧ r.size = e.blockSize ∧
    ∀ first ∈ f.regions.head?, 0 < first.size → first.total ≤ r.total

/-- Some region of a usable function covers the extent. -/
def Reaches (chip : Chip) (extent : ℕ) : Prop :=
  ∃ f ∈ chip.eraseFunctions, f.usable = true ∧ ∃ r ∈ f.regions, 0 < r.size ∧ extent ≤ r.total

end Chip

/-! ## Covering the extent -/

theorem mem_covering_add (h : e ∈ (c.add extent offers).1.covering) :
    e ∈ c.covering ∨ ∃ o ∈ offers, extent ≤ o.total ∧ e = o.eraser := by
  unfold Candidates.add at h
  dsimp only at h
  split at h
  · exact .inl h
  · rename_i o hfind
    have hreach := List.find?_some hfind
    rw [decide_eq_true_eq] at hreach
    split at h
    · rename_i l hins
      refine ((mem_insert hins e).1 h).symm.imp_right fun heq => ?_
      exact ⟨o, List.mem_of_find?_eq_some hfind, hreach, heq⟩
    · exact .inl h

theorem gatherCandidates_covers (hf : filter.Vouches chip I A) (hs : I s.device) :
    Ends (gatherCandidates chip extent filter
      (chip.eraseFunctions.take Chip.maxEraseFunctions).zipIdx {}) s
      fun r _ => ∃ found, r = .ok found ∧ ∀ e ∈ found.covering, chip.Covers extent e := by
  refine (gatherCandidates_ends (J := fun fs found dev => I dev ∧
    (∀ e ∈ found.covering, chip.Covers extent e) ∧
    ∀ p ∈ fs, chip.eraseFunctions[p.2]? = some p.1) ?_ ?_ (length_functions_le chip)
    ⟨hs, by simp, fun p hp => (zipIdx_functions hp).2⟩).mono
      fun _ _ ⟨found, hr, h⟩ => ⟨found, hr, h.2.1⟩
  · rintro f i fs found dev ⟨hI, hcovers, hrest⟩ -
    exact ⟨hI, hcovers, (List.forall_mem_cons.1 hrest).2⟩
  · rintro f i fs found s ⟨hI, hcovers, hrest⟩ -
    obtain ⟨hget, hrest⟩ := List.forall_mem_cons.1 hrest
    refine (hf i s hI).mono ?_
    rintro (_ | _) s' ⟨hI', -⟩
    · exact ⟨hI', hcovers, hrest⟩
    · refine ⟨hI', fun e he => ?_, hrest⟩
      rcases mem_covering_add he with he | ⟨o, ho, hreach, rfl⟩
      · exact hcovers e he
      · obtain ⟨hfun, r, hr, hsize, htotal⟩ := mem_ofFunction ho
        exact ⟨f, r, hfun ▸ hget, hr, hsize, htotal ▸ hreach⟩

/-- From candidates that cover the extent, only such are selected. -/
theorem mem_selection (hne : c.covering ≠ []) (h : c.selection = .ok es) (he : e ∈ es) :
    e ∈ c.covering := by
  obtain ⟨finest, coarser, hc⟩ := List.exists_cons_of_ne_nil hne
  unfold Candidates.selection at h
  rw [hc] at h ⊢
  cases h
  exact ((nesting_sublist finest coarser).cons_cons finest).subset he

theorem admits_all (chip : Chip) (I : σ → Prop) (i : ℕ) :
    EraserFilter.all.Admits chip I i := fun _ h => ⟨h, rfl⟩

/-- **If the extent can be reached, the selected erasers do.** -/
theorem selectErasers_covers (hs : chip.Sound) (hreach : chip.Reaches extent) :
    Ends (selectErasers chip extent EraserFilter.all) s fun r _ =>
      ∀ es, r = .ok es → ∀ e ∈ es, chip.Covers extent e := by
  obtain ⟨f, hf, husable, r, hr, hpos, hle⟩ := hreach
  obtain ⟨i, hget⟩ := List.mem_iff_getElem?.1 hf
  obtain ⟨o, ho, htotal⟩ := exists_ofFunction i hr hpos
  have hi : i < Chip.maxEraseFunctions := (List.getElem?_eq_some_iff.1 hget).1.trans_le hs.few
  have hpromising : Promising chip extent EraserFilter.all (fun _ : σ => True)
      (chip.eraseFunctions.take Chip.maxEraseFunctions).zipIdx {} :=
    .inr ⟨(f, i), mem_zipIdx_functions hi hget, husable, admits_all chip _ i, o, ho, htotal ▸ hle⟩
  have hall := vouches_all chip (fun _ : σ => True)
  refine (selectErasers_selection (R := fun found _ => found.covering ≠ [] ∧
    ∀ e ∈ found.covering, chip.Covers extent e)
    (((gatherCandidates_covering hall (length_functions_le chip) hpromising trivial).and
      (gatherCandidates_covers hall trivial)).mono ?_)).mono ?_
  · rintro _ s' ⟨⟨found, rfl, hne⟩, ⟨_, ⟨⟩, hcovers⟩⟩
    exact ⟨found, rfl, hne, hcovers⟩
  · rintro _ s' ⟨found, ⟨hne, hcovers⟩, rfl⟩ es hes e he
    exact hcovers e (mem_selection hne hes he)

/-! ## Covering no less than the first region -/

/-- The first region of a function, if it has blocks, is its first offer. -/
theorem head?_ofFunction {first : Region} (hfirst : f.regions.head? = some first)
    (hpos : 0 < first.size) :
    ∃ o, (Coverage.ofFunction f i).head? = some o ∧ o.total = first.total := by
  obtain ⟨rest, hregions⟩ := List.head?_eq_some_iff.1 hfirst
  have hoffer : (Eraser.ofSize? i 0 first.size).map (fun e => Coverage.mk e first.total) =
      some ⟨⟨i, 0, first.size, hpos⟩, first.total⟩ := by
    rw [Eraser.ofSize?, dif_pos hpos, Option.map_some]
  refine ⟨⟨⟨i, 0, first.size, hpos⟩, first.total⟩, ?_, rfl⟩
  rw [Coverage.ofFunction, hregions, List.zipIdx_cons]
  exact congrArg List.head? (List.filterMap_cons_some (a := (first, 0)) hoffer)

/-- **No selected region covers less than the first one of its function.** -/
theorem selectErasers_leads (hf : filter.Vouches chip I A) (hs : I s.device) :
    Ends (selectErasers chip extent filter) s fun r s' => I s'.device ∧
      ∀ es, r = .ok es → es ≠ [] ∧ Nested es ∧ ∀ e ∈ es, A e.function ∧ chip.Leads e := by
  refine selectErasers_sound hf (fun i f _ hget husable hA o ho => ?_) hs
  obtain ⟨hfun, r, hr, hsize, htotal⟩ := mem_ofFunction ho.mem
  refine ⟨hfun ▸ hA, f, r, hfun ▸ hget, husable, hr, hsize, fun first hfirst hpos => ?_⟩
  obtain ⟨o', ho', htotal'⟩ := head?_ofFunction (i := i) hfirst hpos
  have := ho.first o' ho'
  omega

/-! ## Selections of one function -/

/-- Some eraser can be selected. -/
def Candidates.Found (c : Candidates) : Prop := c.covering ≠ [] ∨ c.fallback ≠ none

theorem foldl_larger_ne_none {best : Option Coverage} (h : best ≠ none ∨ offers ≠ []) :
    offers.foldl Coverage.larger best ≠ none := by
  induction offers generalizing best with
  | nil => exact h.resolve_right (not_not_intro rfl)
  | cons c cs ih =>
    obtain ⟨x, hx, -⟩ := larger_spec best c
    rw [List.foldl_cons, hx]
    exact ih (.inl (Option.some_ne_none x))

theorem Candidates.Found.add (h : c.Found ∨ offers ≠ []) : (c.add extent offers).1.Found := by
  by_cases hc : c.covering = []
  case neg => exact .inl (covering_add offers hc)
  unfold Candidates.Found at h ⊢
  cases hfind : offers.find? fun o => extent ≤ o.total with
  | some o =>
    have hreach := List.find?_some hfind
    rw [decide_eq_true_eq] at hreach
    exact .inl (covering_add_of_le (List.mem_of_find?_eq_some hfind) hreach)
  | none =>
    -- all that is offered falls short
    have hshort : offers.takeWhile (fun o => o.total < extent) = offers := by
      refine List.takeWhile_eq_self_iff.2 fun o ho => ?_
      have := List.find?_eq_none.1 hfind o ho
      rw [decide_eq_true_eq] at this ⊢
      omega
    right
    unfold Candidates.add
    dsimp only
    rw [hfind, hshort]
    refine foldl_larger_ne_none ?_
    rcases h with (h | h) | h
    · exact absurd hc h
    · exact .inl h
    · exact .inr h

/-- **One usable function that the filter admits** is enough. -/
theorem selectErasers_found (hf : filter.Vouches chip I A) (hi : i < Chip.maxEraseFunctions)
    (hget : chip.eraseFunctions[i]? = some f) (husable : f.usable = true)
    (hadmits : filter.Admits chip I i) (hoffers : Coverage.ofFunction f i ≠ []) (hs : I s.device) :
    Ends (selectErasers chip extent filter) s fun r _ => ∃ es, r = .ok es := by
  -- something is found already, or the function is still to come
  refine (selectErasers_selection (R := fun found _ => found.Found)
    ((gatherCandidates_ends (J := fun fs found dev => I dev ∧ (found.Found ∨ (f, i) ∈ fs)) ?_ ?_
      (length_functions_le chip) ⟨hs, .inr (mem_zipIdx_functions hi hget)⟩).mono ?_)).mono ?_
  · rintro g k fs found dev ⟨hI, h⟩ hunusable
    refine ⟨hI, h.imp_right fun h => (List.mem_cons.1 h).resolve_left ?_⟩
    rintro ⟨⟩
    rw [husable] at hunusable
    cases hunusable
  · rintro g k fs found s ⟨hI, h⟩ -
    by_cases hthis : (f, i) = (g, k)
    · cases hthis
      refine (hadmits s hI).mono ?_
      rintro _ s' ⟨hI', rfl⟩
      exact ⟨hI', .inl (Candidates.Found.add (.inr hoffers))⟩
    · have hrest : found.Found ∨ (f, i) ∈ fs :=
        h.imp_right fun h => (List.mem_cons.1 h).resolve_left hthis
      refine (hf k s hI).mono ?_
      rintro (_ | _) s' ⟨hI', -⟩
      · exact ⟨hI', hrest⟩
      · exact ⟨hI', hrest.imp_left fun h => Candidates.Found.add (.inl h)⟩
  · rintro r s' ⟨found, hr, -, h⟩
    exact ⟨found, hr, h.resolve_right List.not_mem_nil⟩
  · rintro _ s' ⟨found, h, rfl⟩
    unfold Candidates.selection
    rcases hc : found.covering with _ | ⟨finest, coarser⟩
    · rcases ho : found.fallback with _ | o
      · exact absurd h (by simp [Candidates.Found, hc, ho])
      · exact ⟨[o.eraser], rfl⟩
    · exact ⟨_, rfl⟩

/-! ## Filters whose answers are known -/

/-- Asked in a state with `I`, the filter keeps `I`, and it is known which functions it allows. -/
def EraserFilter.Answers (filter : EraserFilter σ) (chip : Chip) (I : σ → Prop)
    (allow : ℕ → Bool) : Prop :=
  ∀ i (s : Session σ), I s.device → Ends (filter chip i) s fun b s' => I s'.device ∧ b = allow i

theorem answers_all (chip : Chip) (I : σ → Prop) :
    EraserFilter.all.Answers chip I fun _ => true := fun _ _ h => ⟨h, rfl⟩

theorem EraserFilter.Answers.vouches {allow : ℕ → Bool} (h : filter.Answers chip I allow) :
    filter.Vouches chip I fun i => allow i = true := fun i s hs =>
  (h i s hs).mono fun _ _ hb => ⟨hb.1, fun hallowed => hb.2.symm.trans hallowed⟩

theorem EraserFilter.Answers.admits {allow : ℕ → Bool} (h : filter.Answers chip I allow)
    (hi : allow i = true) : filter.Admits chip I i := fun s hs =>
  (h i s hs).mono fun _ _ hb => ⟨hb.1, hb.2.trans hi⟩

namespace Candidates

/-- Adds what the usable functions offer that are allowed, one after the other. -/
def gather (c : Candidates) (extent : ℕ) (allow : ℕ → Bool) (fs : List (EraseFunction × ℕ)) :
    Candidates :=
  fs.foldl (fun c p =>
    if p.1.usable && allow p.2 then (c.add extent (Coverage.ofFunction p.1 p.2)).1 else c) c

end Candidates

theorem gatherCandidates_answers {allow : ℕ → Bool} {fs : List (EraseFunction × ℕ)}
    (hf : filter.Answers chip I allow)
    (hroom : c.covering.length + fs.length ≤ Chip.maxEraseFunctions) (hs : I s.device) :
    Ends (gatherCandidates chip extent filter fs c) s fun r s' =>
      ∃ found, r = .ok found ∧ I s'.device ∧ found = c.gather extent allow fs := by
  -- what is found so far, with the functions that remain, comes to what all of them come to
  refine gatherCandidates_ends (J := fun rest found dev =>
    I dev ∧ found.gather extent allow rest = c.gather extent allow fs) ?_ ?_ hroom ⟨hs, rfl⟩
  · rintro f i rest found dev ⟨hI, hfound⟩ hunusable
    rw [Candidates.gather, List.foldl_cons, hunusable, Bool.false_and,
      if_neg Bool.false_ne_true] at hfound
    exact ⟨hI, hfound⟩
  · rintro f i rest found s₁ ⟨hI, hfound⟩ husable
    rw [Candidates.gather, List.foldl_cons, husable, Bool.true_and] at hfound
    refine (hf i s₁ hI).mono ?_
    rintro _ s₂ ⟨hI₂, rfl⟩
    exact ⟨hI₂, hfound⟩

/-- **What is selected** depends only on what the filter answers. -/
theorem selectErasers_answers {allow : ℕ → Bool} (hf : filter.Answers chip I allow)
    (hs : I s.device) : Ends (selectErasers chip extent filter) s fun r s' => I s'.device ∧
      r = (Candidates.gather {} extent allow
        (chip.eraseFunctions.take Chip.maxEraseFunctions).zipIdx).selection := by
  refine (selectErasers_selection (R := fun found dev => I dev ∧
    found = Candidates.gather {} extent allow _)
    (gatherCandidates_answers hf (length_functions_le chip) hs)).mono ?_
  rintro _ s' ⟨_, ⟨hI, rfl⟩, rfl⟩
  exact ⟨hI, rfl⟩

end Reflash
