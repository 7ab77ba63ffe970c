import Reflash.Plan.Eraser
import Reflash.Proofs.Computation

/-!
# The selected erasers

Whatever the filter does, the erasers of a plan are ordered by block size, each
block size is a multiple of the ones before (`Nested`), and each eraser is a region
of a usable function of the chip (`Chip.Offers`).

* `selectErasers_selection`: what is selected is a function of the candidates.
* `selectErasers_ends`: the facts above, along with what the filter vouches for.
* `selectErasers_ok`: if the filter allows a function that covers the extent, the
  selection succeeds.
-/

namespace Reflash

variable {chip : Chip} {extent : ℕ} {σ : Type}

/-- Ordered by block size, and coarser blocks are made up of whole finer ones. -/
def Nested (es : List Eraser) : Prop :=
  es.Pairwise fun e f => e.blockSize < f.blockSize ∧ e.blockSize ∣ f.blockSize

/-- The eraser is a region of one of the usable functions that the chip may have. -/
def Chip.Offers (chip : Chip) (e : Eraser) : Prop :=
  e.function < Chip.maxEraseFunctions ∧ ∃ f r, chip.eraseFunctions[e.function]? = some f ∧
    f.usable = true ∧ f.regions[e.region]? = some r ∧ r.size = e.blockSize

/-! ## Inserting and dropping -/

/-- **What inserting does**: the eraser comes behind all that have finer blocks, and what it comes
before has coarser ones. -/
theorem exists_insert {e : Eraser} {l l' : List Eraser} (h : e.insert l = .ok l') :
    ∃ finer rest, l = finer ++ rest ∧ l' = finer ++ e :: rest ∧
      (∀ x ∈ finer, x.blockSize < e.blockSize) ∧ ∀ x ∈ rest.head?, e.blockSize < x.blockSize := by
  induction l generalizing l' with
  | nil =>
    cases h
    exact ⟨[], [], rfl, rfl, by simp, by simp⟩
  | cons y ys ih =>
    simp only [Eraser.insert] at h
    split at h
    · rename_i hlt
      cases hi : e.insert ys with
      | error _ => rw [hi] at h; cases h
      | ok zs =>
        rw [hi] at h
        cases h
        obtain ⟨finer, rest, rfl, rfl, hfiner, hrest⟩ := ih hi
        exact ⟨y :: finer, rest, rfl, rfl, List.forall_mem_cons.2 ⟨hlt, hfiner⟩, hrest⟩
    · split at h
      · cases h
      · cases h
        refine ⟨[], y :: ys, rfl, rfl, by simp, fun x hx => ?_⟩
        cases hx
        omega

/-- An eraser is only refused for one with its block size that is there already. -/
theorem insert_error {e x : Eraser} {l : List Eraser} (h : e.insert l = .error x) :
    x ∈ l ∧ x.blockSize = e.blockSize := by
  induction l with
  | nil => cases h
  | cons y ys ih =>
    simp only [Eraser.insert] at h
    split at h
    · cases hi : e.insert ys with
      | error _ => rw [hi] at h; cases h; exact (ih hi).imp_left (List.mem_cons_of_mem _)
      | ok zs => rw [hi] at h; cases h
    · split at h
      · cases h; exact ⟨List.mem_cons_self, by assumption⟩
      · cases h

theorem mem_insert {e : Eraser} {l l' : List Eraser} (h : e.insert l = .ok l') (x : Eraser) :
    x ∈ l' ↔ x = e ∨ x ∈ l := by
  obtain ⟨finer, rest, rfl, rfl, -⟩ := exists_insert h
  simp [or_left_comm]

theorem length_insert {e : Eraser} {l l' : List Eraser} (h : e.insert l = .ok l') :
    l'.length = l.length + 1 := by
  obtain ⟨finer, rest, rfl, rfl, -⟩ := exists_insert h
  simp
  omega

theorem insert_sorted {e : Eraser} {l l' : List Eraser} (h : e.insert l = .ok l')
    (hl : l.Pairwise fun a b => a.blockSize < b.blockSize) :
    l'.Pairwise fun a b => a.blockSize < b.blockSize := by
  obtain ⟨finer, rest, rfl, rfl, hfiner, hhead⟩ := exists_insert h
  obtain ⟨hsorted, hrest, hacross⟩ := List.pairwise_append.1 hl
  have hcoarser : ∀ x ∈ rest, e.blockSize < x.blockSize := by
    intro x hx
    cases rest with
    | nil => cases hx
    | cons y ys =>
      have hy := hhead y rfl
      rcases List.mem_cons.1 hx with rfl | hx
      · exact hy
      · exact hy.trans ((List.pairwise_cons.1 hrest).1 x hx)
  refine List.pairwise_append.2 ⟨hsorted, List.pairwise_cons.2 ⟨hcoarser, hrest⟩, ?_⟩
  intro x hx y hy
  rcases List.mem_cons.1 hy with rfl | hy
  · exact hfiner x hx
  · exact hacross x hx y hy

/-- An eraser is only inserted into a sorted list if its block size is new. -/
theorem insert_ok_new {e : Eraser} {l l' : List Eraser} (h : e.insert l = .ok l')
    (hl : l.Pairwise fun a b => a.blockSize < b.blockSize) :
    ∀ x ∈ l, x.blockSize ≠ e.blockSize := by
  have hsorted := insert_sorted h hl
  obtain ⟨finer, rest, rfl, rfl, hfiner, -⟩ := exists_insert h
  obtain ⟨-, hrest, -⟩ := List.pairwise_append.1 hsorted
  intro x hx
  rcases List.mem_append.1 hx with hx | hx
  · exact (hfiner x hx).ne
  · exact ((List.pairwise_cons.1 hrest).1 x hx).ne'

theorem nesting_sublist (finer : Eraser) (es : List Eraser) : (nesting finer es).1.Sublist es := by
  induction es generalizing finer with
  | nil => exact List.Sublist.refl _
  | cons e es ih =>
    simp only [nesting]
    split
    · exact (ih e).cons_cons e
    · exact (ih finer).cons e

/-- What is kept after `finer` is made up of blocks of `finer`. -/
theorem nesting_dvd (finer : Eraser) (es : List Eraser) :
    (finer :: (nesting finer es).1).Pairwise fun e f => e.blockSize ∣ f.blockSize := by
  induction es generalizing finer with
  | nil => simp [nesting]
  | cons e es ih =>
    simp only [nesting]
    split
    · rename_i h
      have hd : finer.blockSize ∣ e.blockSize := Nat.dvd_of_mod_eq_zero h
      refine List.pairwise_cons.2 ⟨fun x hx => ?_, ih e⟩
      rcases List.mem_cons.1 hx with rfl | hx
      · exact hd
      · exact hd.trans ((List.pairwise_cons.1 (ih e)).1 x hx)
    · exact ih finer

theorem nesting_nested {finer : Eraser} {es : List Eraser}
    (h : (finer :: es).Pairwise fun a b => a.blockSize < b.blockSize) :
    Nested (finer :: (nesting finer es).1) :=
  (h.sublist ((nesting_sublist finer es).cons_cons finer)).imp₂ (fun _ _ => And.intro)
    (nesting_dvd finer es)

/-! ## Gathering candidates -/

theorem mem_ofFunction {f : EraseFunction} {i : ℕ} {o : Coverage}
    (h : o ∈ Coverage.ofFunction f i) : o.eraser.function = i ∧
      ∃ r, f.regions[o.eraser.region]? = some r ∧ r.size = o.eraser.blockSize ∧
        r.total = o.total := by
  simp only [Coverage.ofFunction, List.mem_filterMap, Option.map_eq_some_iff, Prod.exists] at h
  obtain ⟨r, k, hr, e, he, rfl⟩ := h
  simp only [Eraser.ofSize?, Option.dite_none_right_eq_some, Option.some.injEq] at he
  obtain ⟨_, rfl⟩ := he
  exact ⟨rfl, r, List.mk_mem_zipIdx_iff_getElem?.1 hr, rfl, rfl⟩

/-- Every region with a block size is offered. -/
theorem exists_ofFunction {f : EraseFunction} (i : ℕ) {r : Region} (hr : r ∈ f.regions)
    (hpos : 0 < r.size) : ∃ o ∈ Coverage.ofFunction f i, o.total = r.total := by
  obtain ⟨k, hk⟩ := List.mem_iff_getElem?.1 hr
  refine ⟨⟨⟨i, k, r.size, hpos⟩, r.total⟩, List.mem_filterMap.2 ⟨(r, k), ?_, ?_⟩, rfl⟩
  · exact List.mk_mem_zipIdx_iff_getElem?.2 hk
  · simp only [Eraser.ofSize?, dif_pos hpos, Option.map_some]

/-- The candidates are sorted, and `P` holds of each. -/
structure Candidates.Sound (P : Eraser → Prop) (c : Candidates) : Prop where
  sorted : c.covering.Pairwise fun a b => a.blockSize < b.blockSize
  covering : ∀ e ∈ c.covering, P e
  fallback : ∀ o ∈ c.fallback, P o.eraser

/-- Of what is offered, the one that covers no less than the first. -/
structure Coverage.Leads (o : Coverage) (offers : List Coverage) : Prop where
  mem : o ∈ offers
  first : ∀ first ∈ offers.head?, first.total ≤ o.total

theorem larger_spec (best : Option Coverage) (c : Coverage) :
    ∃ x, Coverage.larger best c = some x ∧ (x ∈ best ∨ x = c) ∧ c.total ≤ x.total := by
  unfold Coverage.larger
  cases best with
  | none => exact ⟨c, rfl, .inr rfl, Nat.le_refl _⟩
  | some b =>
    dsimp only
    split
    · exact ⟨c, rfl, .inr rfl, Nat.le_refl _⟩
    · exact ⟨b, rfl, .inl rfl, by omega⟩

theorem le_larger {best : Option Coverage} {b c x : Coverage} (hb : b ∈ best)
    (hx : Coverage.larger best c = some x) : b.total ≤ x.total := by
  cases hb
  unfold Coverage.larger at hx
  dsimp only at hx
  split at hx
  · cases hx
    omega
  · cases hx
    exact Nat.le_refl _

/-- The fold ends with one that covers most. -/
theorem foldl_larger {offers : List Coverage} {best : Option Coverage} {o : Coverage}
    (h : o ∈ offers.foldl Coverage.larger best) : (o ∈ best ∨ o ∈ offers) ∧
      (∀ b ∈ best, b.total ≤ o.total) ∧ ∀ c ∈ offers, c.total ≤ o.total := by
  induction offers generalizing best with
  | nil =>
    refine ⟨.inl h, fun b hb => ?_, by simp⟩
    rw [Option.mem_unique hb h]
  | cons c cs ih =>
    obtain ⟨x, hx, hmem, hcx⟩ := larger_spec best c
    rw [List.foldl_cons, hx] at h
    obtain ⟨ho, hbest, hcs⟩ := ih h
    have hxo : x.total ≤ o.total := hbest x rfl
    refine ⟨?_, fun b hb => (le_larger hb hx).trans hxo, fun d hd => ?_⟩
    · rcases ho with ho | ho
      · obtain rfl := Option.mem_some_iff.1 ho
        exact hmem.imp_right fun heq => List.mem_cons.2 (.inl heq)
      · exact .inr (List.mem_cons_of_mem _ ho)
    · rcases List.mem_cons.1 hd with rfl | hd
      · exact hcx.trans hxo
      · exact hcs d hd

/-- What falls short is offered before the first region that does not. -/
theorem leads_of_short {offers : List Coverage} {best : Option Coverage} {o : Coverage}
    (h : o ∈ (offers.takeWhile fun o => o.total < extent).foldl Coverage.larger best) :
    o ∈ best ∨ o.Leads offers := by
  obtain ⟨ho, -, hmax⟩ := foldl_larger h
  refine ho.imp_right fun ho => ⟨(List.takeWhile_sublist _).subset ho, fun first hfirst => ?_⟩
  obtain ⟨rest, rfl⟩ : ∃ rest, offers = first :: rest := List.head?_eq_some_iff.1 hfirst
  refine hmax first ?_
  rw [List.takeWhile_cons] at ho ⊢
  split at ho
  · rename_i hshort
    rw [if_pos hshort]
    exact List.mem_cons_self
  · cases ho

theorem leads_of_find {offers : List Coverage} {o : Coverage}
    (h : offers.find? (fun o => extent ≤ o.total) = some o) : o.Leads offers := by
  refine ⟨List.mem_of_find?_eq_some h, fun first hfirst => ?_⟩
  obtain ⟨rest, rfl⟩ : ∃ rest, offers = first :: rest := List.head?_eq_some_iff.1 hfirst
  have hreach := List.find?_some h
  rw [decide_eq_true_eq] at hreach
  rw [List.find?_cons] at h
  split at h
  · cases h
    exact Nat.le_refl _
  · rename_i hshort
    rw [decide_eq_false_iff_not] at hshort
    omega

theorem Candidates.Sound.add {P : Eraser → Prop} {c : Candidates} (hc : c.Sound P)
    {offers : List Coverage} (ho : ∀ o : Coverage, o.Leads offers → P o.eraser) :
    (c.add extent offers).1.Sound P := by
  have hfall : ∀ o ∈ (offers.takeWhile fun o => o.total < extent).foldl Coverage.larger c.fallback,
      P o.eraser := fun o h => (leads_of_short h).elim (hc.fallback o) (ho o)
  unfold Candidates.add
  dsimp only
  split
  · exact ⟨hc.sorted, hc.covering, hfall⟩
  · rename_i o hfind
    have hP := ho o (leads_of_find hfind)
    split
    · rename_i l hins
      refine ⟨insert_sorted hins hc.sorted, fun e he => ?_, hfall⟩
      rcases (mem_insert hins e).1 he with rfl | he
      · exact hP
      · exact hc.covering e he
    · exact ⟨hc.sorted, hc.covering, hfall⟩

/-- Candidates are never lost. -/
theorem covering_add {c : Candidates} (offers : List Coverage) :
    c.covering ≠ [] → (c.add extent offers).1.covering ≠ [] := by
  intro h
  unfold Candidates.add
  dsimp only
  split
  · exact h
  · split
    · rename_i o _ _ l hins
      exact List.ne_nil_of_mem ((mem_insert hins o.eraser).2 (.inl rfl))
    · exact h

/-- An offer that covers the extent leaves a candidate that does. -/
theorem covering_add_of_le {c : Candidates} {offers : List Coverage} {o : Coverage}
    (ho : o ∈ offers) (hle : extent ≤ o.total) : (c.add extent offers).1.covering ≠ [] := by
  unfold Candidates.add
  dsimp only
  split
  · rename_i hfind
    have := List.find?_eq_none.1 hfind o ho
    simp [hle] at this
  · split
    · rename_i o' _ _ l hins
      exact List.ne_nil_of_mem ((mem_insert hins o'.eraser).2 (.inl rfl))
    · rename_i x hins
      exact List.ne_nil_of_mem (insert_error hins).1

/-- One function adds one candidate at most. -/
theorem length_covering_add (c : Candidates) (extent : ℕ) (offers : List Coverage) :
    (c.add extent offers).1.covering.length ≤ c.covering.length + 1 := by
  unfold Candidates.add
  dsimp only
  split
  · exact Nat.le_succ _
  · split
    · rename_i hins
      exact (length_insert hins).le
    · exact Nat.le_succ _

/-! ## The selection -/

/-- Asked in a state with `I`, the filter keeps `I` and allows only functions with `A`. -/
def EraserFilter.Vouches (filter : EraserFilter σ) (chip : Chip) (I : σ → Prop) (A : ℕ → Prop) :
    Prop :=
  ∀ i (s : Session σ), I s.device →
    Ends (filter chip i) s fun b s' => I s'.device ∧ (b = true → A i)

/-- Nothing is known about a filter in general. -/
theorem vouches_trivial (filter : EraserFilter σ) (chip : Chip) :
    filter.Vouches chip (fun _ => True) fun _ => True :=
  fun _ _ _ => ⟨trivial, fun _ => trivial⟩

theorem vouches_all (chip : Chip) (I : σ → Prop) :
    EraserFilter.all.Vouches chip I fun _ => True := fun _ _ h => ⟨h, fun _ => trivial⟩

variable {filter : EraserFilter σ} {I : σ → Prop} {A : ℕ → Prop} {s : Session σ}

/-- **All functions**, with an invariant about those that remain. There is room for each of them. -/
theorem gatherCandidates_ends {J : List (EraseFunction × ℕ) → Candidates → σ → Prop}
    (hskip : ∀ f i fs found dev, J ((f, i) :: fs) found dev → f.usable = false → J fs found dev)
    (hask : ∀ f i fs found (s : Session σ), J ((f, i) :: fs) found s.device → f.usable = true →
      Ends (filter chip i) s fun b s' => J fs
        (if b then (found.add extent (Coverage.ofFunction f i)).1 else found) s'.device)
    {fs : List (EraseFunction × ℕ)} {found : Candidates}
    (hroom : found.covering.length + fs.length ≤ Chip.maxEraseFunctions)
    (h : J fs found s.device) :
    Ends (gatherCandidates chip extent filter fs found) s fun r s' =>
      ∃ found', r = .ok found' ∧ J [] found' s'.device := by
  induction fs generalizing found s with
  | nil => exact ends_pure ⟨found, rfl, h⟩
  | cons p fs ih =>
    obtain ⟨f, i⟩ := p
    rw [List.length_cons] at hroom
    unfold gatherCandidates
    split
    · rename_i husable
      refine (hask f i fs found s h husable).liftThen ?_
      rintro (_ | _) s₁ h₁
      · exact ih (by omega) h₁
      · have hadded := length_covering_add found extent (Coverage.ofFunction f i)
        dsimp only
        rw [if_pos rfl, if_neg (by omega)]
        exact Ends.notesThen (ih (by omega) h₁)
    · rename_i hunusable
      exact ih (by omega) (hskip f i fs found _ h (Bool.eq_false_iff.2 hunusable))

/-- The candidates have what leading offers of the allowed functions have. -/
theorem gatherCandidates_sound (hf : filter.Vouches chip I A) {P : Eraser → Prop}
    {fs : List (EraseFunction × ℕ)}
    (hP : ∀ p ∈ fs, p.1.usable = true → A p.2 →
      ∀ o : Coverage, o.Leads (Coverage.ofFunction p.1 p.2) → P o.eraser)
    {found : Candidates} (hroom : found.covering.length + fs.length ≤ Chip.maxEraseFunctions)
    (hfound : found.Sound P) (hs : I s.device) :
    Ends (gatherCandidates chip extent filter fs found) s fun r s' =>
      ∃ found', r = .ok found' ∧ I s'.device ∧ found'.Sound P := by
  refine (gatherCandidates_ends (J := fun fs found dev => I dev ∧ found.Sound P ∧
    ∀ p ∈ fs, p.1.usable = true → A p.2 →
      ∀ o : Coverage, o.Leads (Coverage.ofFunction p.1 p.2) → P o.eraser) ?_ ?_ hroom
    ⟨hs, hfound, hP⟩).mono fun _ _ ⟨found', hr, h⟩ => ⟨found', hr, h.1, h.2.1⟩
  · rintro f i fs found dev ⟨hI, hsound, hrest⟩ -
    exact ⟨hI, hsound, (List.forall_mem_cons.1 hrest).2⟩
  · rintro f i fs found s ⟨hI, hsound, hrest⟩ husable
    obtain ⟨hfirst, hrest⟩ := List.forall_mem_cons.1 hrest
    refine (hf i s hI).mono ?_
    rintro (_ | _) s' ⟨hI', hA⟩
    · exact ⟨hI', hsound, hrest⟩
    · exact ⟨hI', hsound.add (hfirst husable (hA rfl)), hrest⟩

/-- The functions that may take part are as many as there is room for. -/
theorem length_functions_le (chip : Chip) :
    ({} : Candidates).covering.length +
      (chip.eraseFunctions.take Chip.maxEraseFunctions).zipIdx.length ≤
        Chip.maxEraseFunctions := by
  rw [List.length_zipIdx, List.length_take, List.length_nil]
  omega

theorem zipIdx_functions {p : EraseFunction × ℕ}
    (hp : p ∈ (chip.eraseFunctions.take Chip.maxEraseFunctions).zipIdx) :
    p.2 < Chip.maxEraseFunctions ∧ chip.eraseFunctions[p.2]? = some p.1 := by
  have h := List.mem_zipIdx_iff_getElem?.1 hp
  rw [List.getElem?_take] at h
  split at h
  · exact ⟨‹_›, h⟩
  · cases h

theorem mem_zipIdx_functions {i : ℕ} {f : EraseFunction} (hi : i < Chip.maxEraseFunctions)
    (hget : chip.eraseFunctions[i]? = some f) :
    (f, i) ∈ (chip.eraseFunctions.take Chip.maxEraseFunctions).zipIdx := by
  rw [List.mk_mem_zipIdx_iff_getElem?, List.getElem?_take, if_pos hi, hget]

/-- What is selected from the candidates. -/
def Candidates.selection (c : Candidates) : Except FlashError (List Eraser) :=
  match c.covering, c.fallback with
  | finest :: coarser, _ => .ok (finest :: (nesting finest coarser).1)
  | [], some o => .ok [o.eraser]
  | [], none => .error .noEraser

/-- **The selection** depends on the candidates alone. -/
theorem selectErasers_selection {R : Candidates → σ → Prop}
    (h : Ends (gatherCandidates chip extent filter
      (chip.eraseFunctions.take Chip.maxEraseFunctions).zipIdx {}) s
      fun r s' => ∃ found, r = .ok found ∧ R found s'.device) :
    Ends (selectErasers chip extent filter) s fun r s' =>
      ∃ found, R found s'.device ∧ r = found.selection := by
  unfold selectErasers
  refine h.andThen ?_ ?_
  · rintro found s₁ ⟨_, ⟨⟩, h₁⟩
    unfold Candidates.selection
    dsimp only
    split
    · rename_i hc
      exact Ends.notesThen (Ends.noteThen (ends_pure ⟨found, h₁, by rw [hc]⟩))
    · rename_i hc
      split
      · rename_i ho
        exact Ends.noteThen (ends_pure ⟨found, h₁, by rw [hc, ho]⟩)
      · rename_i ho
        exact Ends.noteThen (ends_throw ⟨found, h₁, by rw [hc, ho]⟩)
  · rintro e s₁ ⟨found, ⟨⟩, -⟩

/-- What is selected is nested and sound. -/
theorem Candidates.Sound.selection {P : Eraser → Prop} {c : Candidates} (hc : c.Sound P)
    {es : List Eraser} (h : c.selection = .ok es) : es ≠ [] ∧ Nested es ∧ ∀ e ∈ es, P e := by
  obtain ⟨hsorted, hcov, hfall⟩ := hc
  unfold Candidates.selection at h
  split at h
  · rename_i finest coarser hc
    cases h
    rw [hc] at hsorted hcov
    -- dropping what does not nest leaves the rest sorted
    refine ⟨List.cons_ne_nil _ _, nesting_nested hsorted, fun e he => hcov e ?_⟩
    exact ((nesting_sublist finest coarser).cons_cons finest).subset he
  · rename_i o _ ho
    cases h
    refine ⟨List.cons_ne_nil _ _, List.pairwise_singleton _ _, fun e he => ?_⟩
    rw [List.mem_singleton.1 he]
    exact hfall o ho
  · cases h

/-- **The selected erasers** are nested and have what leading offers of the allowed functions have.
There is at least one. -/
theorem selectErasers_sound (hf : filter.Vouches chip I A) {P : Eraser → Prop}
    (hP : ∀ i f, i < Chip.maxEraseFunctions → chip.eraseFunctions[i]? = some f →
      f.usable = true → A i → ∀ o : Coverage, o.Leads (Coverage.ofFunction f i) → P o.eraser)
    (hs : I s.device) :
    Ends (selectErasers chip extent filter) s fun r s' => I s'.device ∧
      ∀ es, r = .ok es → es ≠ [] ∧ Nested es ∧ ∀ e ∈ es, P e := by
  have hempty : ({} : Candidates).Sound P := ⟨List.Pairwise.nil, by simp, by simp⟩
  refine (selectErasers_selection (R := fun found dev => I dev ∧ found.Sound P)
    (gatherCandidates_sound hf ?_ (length_functions_le chip) hempty hs)).mono ?_
  · rintro ⟨f, i⟩ hp husable hA
    obtain ⟨hi, hget⟩ := zipIdx_functions hp
    exact hP i f hi hget husable hA
  · rintro _ s' ⟨found, ⟨hI, hsound⟩, rfl⟩
    exact ⟨hI, fun es hes => hsound.selection hes⟩

/-- The selected erasers come from usable functions of the chip, and the filter vouches for each. -/
theorem selectErasers_ends (hf : filter.Vouches chip I A) (hs : I s.device) :
    Ends (selectErasers chip extent filter) s fun r s' => I s'.device ∧
      ∀ es, r = .ok es → es ≠ [] ∧ Nested es ∧ ∀ e ∈ es, A e.function ∧ chip.Offers e := by
  refine selectErasers_sound hf (fun i f hi hget husable hA o ho => ?_) hs
  obtain ⟨hfun, r, hr, hsize, -⟩ := mem_ofFunction ho.mem
  rw [Chip.Offers, hfun]
  exact ⟨hA, hi, f, r, hget, husable, hr, hsize⟩

/-! ## Selections that succeed -/

/-- Asked in a state with `I`, the filter allows function number `i` and keeps `I`. -/
def EraserFilter.Admits (filter : EraserFilter σ) (chip : Chip) (I : σ → Prop) (i : ℕ) : Prop :=
  ∀ s : Session σ, I s.device → Ends (filter chip i) s fun b s' => I s'.device ∧ b = true

/-- A candidate is there, or a function that the filter admits offers one. -/
def Promising (chip : Chip) (extent : ℕ) (filter : EraserFilter σ) (I : σ → Prop)
    (fs : List (EraseFunction × ℕ)) (found : Candidates) : Prop :=
  found.covering ≠ [] ∨ ∃ p ∈ fs, p.1.usable = true ∧ filter.Admits chip I p.2 ∧
    ∃ o ∈ Coverage.ofFunction p.1 p.2, extent ≤ o.total

/-- What the first function offers is added, and the rest promises as much. -/
theorem Promising.add {f : EraseFunction} {i : ℕ} {fs : List (EraseFunction × ℕ)}
    {found : Candidates} (h : Promising chip extent filter I ((f, i) :: fs) found) :
    Promising chip extent filter I fs (found.add extent (Coverage.ofFunction f i)).1 := by
  rcases h with h | ⟨q, hq, husable, hadmits, o, ho, hle⟩
  · exact .inl (covering_add _ h)
  · rcases List.mem_cons.1 hq with rfl | hq
    · exact .inl (covering_add_of_le ho hle)
    · exact .inr ⟨q, hq, husable, hadmits, o, ho, hle⟩

/-- A function that is not used or not admitted can be left out. -/
theorem Promising.drop {f : EraseFunction} {i : ℕ} {fs : List (EraseFunction × ℕ)}
    {found : Candidates} (h : Promising chip extent filter I ((f, i) :: fs) found)
    (hnot : f.usable = true → ¬filter.Admits chip I i) :
    Promising chip extent filter I fs found := by
  rcases h with h | ⟨q, hq, husable, hadmits, hoffer⟩
  · exact .inl h
  · rcases List.mem_cons.1 hq with rfl | hq
    · exact absurd hadmits (hnot husable)
    · exact .inr ⟨q, hq, husable, hadmits, hoffer⟩

theorem gatherCandidates_covering (hf : filter.Vouches chip I A) {fs : List (EraseFunction × ℕ)}
    {found : Candidates} (hroom : found.covering.length + fs.length ≤ Chip.maxEraseFunctions)
    (h : Promising chip extent filter I fs found) (hs : I s.device) :
    Ends (gatherCandidates chip extent filter fs found) s fun r _ =>
      ∃ found', r = .ok found' ∧ found'.covering ≠ [] := by
  have hrun : Ends (gatherCandidates chip extent filter fs found) s fun r s' =>
      ∃ found', r = .ok found' ∧ I s'.device ∧ Promising chip extent filter I [] found' := by
    refine gatherCandidates_ends (J := fun fs found dev => I dev ∧
      Promising chip extent filter I fs found) ?_ ?_ hroom ⟨hs, h⟩
    · rintro f i fs found dev ⟨hI, hpromising⟩ hunusable
      exact ⟨hI, hpromising.drop fun husable => by rw [hunusable] at husable; cases husable⟩
    · rintro f i fs found s ⟨hI, hpromising⟩ -
      -- an admitted function adds what it offers, another one may or may not be allowed
      by_cases hadmits : filter.Admits chip I i
      · refine (hadmits s hI).mono ?_
        rintro _ s' ⟨hI', rfl⟩
        exact ⟨hI', hpromising.add⟩
      · refine (hf i s hI).mono ?_
        rintro (_ | _) s' ⟨hI', -⟩
        · exact ⟨hI', hpromising.drop fun _ => hadmits⟩
        · exact ⟨hI', hpromising.add⟩
  refine hrun.mono ?_
  rintro r s' ⟨found', hr, -, h | ⟨p, hp, -⟩⟩
  · exact ⟨found', hr, h⟩
  · cases hp

/-- **A selection succeeds** if the filter admits a usable function that offers to cover the
extent. -/
theorem selectErasers_ok (hf : filter.Vouches chip I A) {i : ℕ} {f : EraseFunction}
    (hi : i < Chip.maxEraseFunctions) (hget : chip.eraseFunctions[i]? = some f)
    (husable : f.usable = true) (hadmits : filter.Admits chip I i)
    (hoffer : ∃ o ∈ Coverage.ofFunction f i, extent ≤ o.total) (hs : I s.device) :
    Ends (selectErasers chip extent filter) s fun r _ => ∃ es, r = .ok es := by
  have hpromising : Promising chip extent filter I
      (chip.eraseFunctions.take Chip.maxEraseFunctions).zipIdx {} :=
    .inr ⟨(f, i), mem_zipIdx_functions hi hget, husable, hadmits, hoffer⟩
  refine (selectErasers_selection (R := fun found _ => found.covering ≠ [])
    (gatherCandidates_covering hf (length_functions_le chip) hpromising hs)).mono ?_
  rintro _ s' ⟨found, hne, rfl⟩
  obtain ⟨finest, coarser, hc⟩ := List.exists_cons_of_ne_nil hne
  exact ⟨finest :: (nesting finest coarser).1, by unfold Candidates.selection; rw [hc]⟩

end Reflash
