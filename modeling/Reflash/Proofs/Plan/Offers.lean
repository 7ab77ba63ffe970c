import Reflash.Proofs.Plan.Selection

/-!
# What a chip offers

The erasers that a chip has to offer are the regions with blocks of its usable and allowed
functions (`Chip.Supplies`). A function is a candidate if one of its regions covers the
extent, and the first such region is its candidate eraser.

* `mem_flatten_offered`, `flatten_offered_ascend`: what the functions offer, one after the
  other, and in which order.
* `candidate_iff`, `CandidateEraser.unique`: a candidate has one candidate eraser.
* `mem_candidates`, `candidates_ascend`: visiting the functions finds the candidate erasers in
  the order of their functions.
-/

namespace Reflash

variable {chip : Chip} {extent : ℕ} {allow : ℕ → Bool} {e x : Eraser} {o : Coverage}
  {offers : List Coverage} {f : EraseFunction} {i n : ℕ}

/-- Numbering a list numbers it in ascending order. -/
theorem zipIdx_ascend {α : Type} (as : List α) : as.zipIdx.Pairwise fun a b => a.2 < b.2 := by
  rw [← List.pairwise_map, List.zipIdx_map_snd]
  exact List.pairwise_lt_range'

/-- In a list that ascends, a search finds the least of what passes the test. -/
theorem find?_least {α : Type} {as : List α} {p : α → Bool} {k : α → ℕ} {a b : α}
    (hascend : as.Pairwise fun a b => k a < k b) (hfind : as.find? p = some a) (hb : b ∈ as)
    (hp : p b = true) : k a ≤ k b := by
  obtain ⟨-, before, after, rfl, hbefore⟩ := List.find?_eq_some_iff_append.1 hfind
  obtain ⟨-, hafter, -⟩ := List.pairwise_append.1 hascend
  rcases List.mem_append.1 hb with hb | hb
  · have hfails := hbefore b hb
    simp [hp] at hfails
  · rcases List.mem_cons.1 hb with rfl | hb
    · exact Nat.le_refl _
    · exact ((List.pairwise_cons.1 hafter).1 b hb).le

/-! ## What a chip supplies -/

namespace Chip

/-- Function number `i` is `f` and may take part: it is one of the first eight, usable and
allowed. -/
structure Enables (chip : Chip) (allow : ℕ → Bool) (i : ℕ) (f : EraseFunction) : Prop where
  few : i < maxEraseFunctions
  get : chip.eraseFunctions[i]? = some f
  usable : f.usable = true
  allowed : allow i = true

/-- The eraser is a region of a function that may take part. The region has blocks and covers `n`
bytes. -/
def Supplies (chip : Chip) (allow : ℕ → Bool) (e : Eraser) (n : ℕ) : Prop :=
  ∃ f r, chip.Enables allow e.function f ∧ f.regions[e.region]? = some r ∧
    r.size = e.blockSize ∧ r.total = n

/-- Some region of function number `i` covers the extent. -/
def Candidate (chip : Chip) (extent : ℕ) (allow : ℕ → Bool) (i : ℕ) : Prop :=
  ∃ e n, chip.Supplies allow e n ∧ e.function = i ∧ extent ≤ n

/-- The eraser is the first region of its function that covers the extent. -/
structure CandidateEraser (chip : Chip) (extent : ℕ) (allow : ℕ → Bool) (e : Eraser) : Prop where
  supplied : ∃ n, chip.Supplies allow e n ∧ extent ≤ n
  first : ∀ x n, chip.Supplies allow x n → x.function = e.function → extent ≤ n →
    e.region ≤ x.region

/-- The eraser covers `n` bytes, no other one covers more, and those that cover as much come
later. -/
structure Largest (chip : Chip) (allow : ℕ → Bool) (e : Eraser) (n : ℕ) : Prop where
  supplied : chip.Supplies allow e n
  most : ∀ x m, chip.Supplies allow x m → m ≤ n
  first : ∀ x, chip.Supplies allow x n → e.function < x.function ∨
    e.function = x.function ∧ e.region ≤ x.region

/-- What each function that may take part offers. -/
def offered (chip : Chip) (allow : ℕ → Bool) : List (List Coverage) :=
  ((chip.eraseFunctions.take maxEraseFunctions).zipIdx.filter fun p =>
    p.1.usable && allow p.2).map fun p => Coverage.ofFunction p.1 p.2

end Chip

namespace Coverage

theorem mem_ofFunction_iff : o ∈ ofFunction f i ↔ o.eraser.function = i ∧
    ∃ r, f.regions[o.eraser.region]? = some r ∧ r.size = o.eraser.blockSize ∧
      r.total = o.total := by
  constructor
  · exact mem_ofFunction
  · obtain ⟨⟨i', k, size, hpos⟩, total⟩ := o
    rintro ⟨rfl, r, hr, rfl, rfl⟩
    refine List.mem_filterMap.2 ⟨(r, k), List.mk_mem_zipIdx_iff_getElem?.2 hr, ?_⟩
    have hsize : 0 < r.size := hpos
    simp [Eraser.ofSize?, hsize]

/-- A function offers its regions in their order. -/
theorem ofFunction_ascend (f : EraseFunction) (i : ℕ) :
    (ofFunction f i).Pairwise fun a b => a.eraser.region < b.eraser.region := by
  refine List.pairwise_filterMap.2 ((zipIdx_ascend f.regions).imp ?_)
  intro a b hab o ho o' ho'
  have hregion : ∀ {p : Region × ℕ} {c : Coverage},
      (Eraser.ofSize? i p.2 p.1.size).map (fun e => Coverage.mk e p.1.total) = some c →
        c.eraser.region = p.2 := by
    intro p c hc
    obtain ⟨e, he, rfl⟩ := Option.map_eq_some_iff.1 hc
    unfold Eraser.ofSize? at he
    split at he
    · cases he
      rfl
    · cases he
  rw [hregion ho, hregion ho']
  exact hab

/-- The candidate eraser among the offers of a function. -/
def candidate? (extent : ℕ) (offers : List Coverage) : Option Eraser :=
  (offers.find? fun o => extent ≤ o.total).map Coverage.eraser

end Coverage

namespace Chip

theorem mem_offered : offers ∈ chip.offered allow ↔
    ∃ i f, chip.Enables allow i f ∧ offers = Coverage.ofFunction f i := by
  unfold offered
  rw [List.mem_map]
  constructor
  · rintro ⟨⟨f, i⟩, hp, rfl⟩
    obtain ⟨hp, henabled⟩ := List.mem_filter.1 hp
    obtain ⟨hi, hget⟩ := zipIdx_functions hp
    rw [Bool.and_eq_true] at henabled
    exact ⟨i, f, ⟨hi, hget, henabled.1, henabled.2⟩, rfl⟩
  · rintro ⟨i, f, h, rfl⟩
    refine ⟨(f, i), List.mem_filter.2 ⟨mem_zipIdx_functions h.few h.get, ?_⟩, rfl⟩
    simp [h.usable, h.allowed]

/-- **All offers** together are the regions with blocks. -/
theorem mem_flatten_offered :
    o ∈ (chip.offered allow).flatten ↔ chip.Supplies allow o.eraser o.total := by
  rw [List.mem_flatten]
  constructor
  · rintro ⟨offers, hoffers, ho⟩
    obtain ⟨i, f, henables, rfl⟩ := mem_offered.1 hoffers
    obtain ⟨rfl, r, hr, hsize, htotal⟩ := mem_ofFunction ho
    exact ⟨f, r, henables, hr, hsize, htotal⟩
  · rintro ⟨f, r, henables, hr, hsize, htotal⟩
    refine ⟨_, mem_offered.2 ⟨_, f, henables, rfl⟩, Coverage.mem_ofFunction_iff.2 ⟨rfl, r, ?_⟩⟩
    exact ⟨hr, hsize, htotal⟩

/-- The functions are visited in their order. -/
theorem offered_ascend (chip : Chip) (allow : ℕ → Bool) :
    (chip.offered allow).Pairwise fun l l' =>
      ∀ o ∈ l, ∀ o' ∈ l', o.eraser.function < o'.eraser.function := by
  unfold offered
  refine List.pairwise_map.2 (((zipIdx_ascend _).sublist List.filter_sublist).imp ?_)
  intro a b hab o ho o' ho'
  rw [(mem_ofFunction ho).1, (mem_ofFunction ho').1]
  exact hab

/-- All offers are in the order of their functions and regions. -/
theorem flatten_offered_ascend (chip : Chip) (allow : ℕ → Bool) :
    (chip.offered allow).flatten.Pairwise fun a b => a.eraser.function < b.eraser.function ∨
      a.eraser.function = b.eraser.function ∧ a.eraser.region < b.eraser.region := by
  rw [List.pairwise_flatten]
  constructor
  · intro offers hoffers
    obtain ⟨i, f, -, rfl⟩ := mem_offered.1 hoffers
    refine (Coverage.ofFunction_ascend f i).imp_of_mem ?_
    intro a b ha hb hab
    exact .inr ⟨(mem_ofFunction ha).1.trans (mem_ofFunction hb).1.symm, hab⟩
  · exact (offered_ascend chip allow).imp fun h a ha b hb => .inl (h a ha b hb)

/-- What is supplied is among the offers of its function. -/
theorem Supplies.offered (h : chip.Supplies allow e n)
    (henables : chip.Enables allow e.function f) :
    (⟨e, n⟩ : Coverage) ∈ Coverage.ofFunction f e.function := by
  obtain ⟨f', r, henables', hr⟩ := h
  have hf : f' = f := Option.some.inj (henables'.get.symm.trans henables.get)
  subst hf
  exact Coverage.mem_ofFunction_iff.2 ⟨rfl, r, hr⟩

/-! ## Candidate erasers -/

/-- Two candidate erasers of one function are the same. -/
theorem CandidateEraser.unique (h : chip.CandidateEraser extent allow e)
    (h' : chip.CandidateEraser extent allow x) (hfun : e.function = x.function) : e = x := by
  obtain ⟨n, hsupply, hn⟩ := h.supplied
  obtain ⟨m, hsupply', hm⟩ := h'.supplied
  have hregion : e.region = x.region :=
    Nat.le_antisymm (h.first x m hsupply' hfun.symm hm) (h'.first e n hsupply hfun hn)
  obtain ⟨f, r, henables, hr, hsize, -⟩ := hsupply
  have hoffer := hsupply'.offered (hfun ▸ henables)
  obtain ⟨-, r', hr', hsize', -⟩ := mem_ofFunction hoffer
  dsimp only at hr' hsize'
  rw [← hregion, hr] at hr'
  cases hr'
  obtain ⟨_, _, _, _⟩ := e
  obtain ⟨_, _, _, _⟩ := x
  dsimp only at hfun hregion hsize hsize'
  simp [hfun, hregion, ← hsize, ← hsize']

/-- The offer that a visit finds is the candidate eraser of the function. -/
theorem candidateEraser_of_find? (henables : chip.Enables allow i f)
    (hfind : (Coverage.ofFunction f i).find? (fun o => extent ≤ o.total) = some o) :
    chip.CandidateEraser extent allow o.eraser := by
  obtain ⟨rfl, r, hr, hsize, htotal⟩ := mem_ofFunction (List.mem_of_find?_eq_some hfind)
  have hreach := List.find?_some hfind
  rw [decide_eq_true_eq] at hreach
  refine ⟨⟨o.total, ⟨f, r, henables, hr, hsize, htotal⟩, hreach⟩, ?_⟩
  intro x n hsupply hfun hn
  have hx := hsupply.offered (hfun.symm ▸ henables)
  rw [hfun] at hx
  exact find?_least (k := fun o => o.eraser.region) (Coverage.ofFunction_ascend f _) hfind hx
    (by simpa using hn)

/-- If a region covers the extent, the visit of its function finds the candidate eraser. -/
theorem Supplies.exists_find? (h : chip.Supplies allow e n) (hn : extent ≤ n)
    (henables : chip.Enables allow e.function f) :
    ∃ o, (Coverage.ofFunction f e.function).find? (fun o => extent ≤ o.total) = some o ∧
      o.eraser.function = e.function ∧ chip.CandidateEraser extent allow o.eraser := by
  cases hfind : (Coverage.ofFunction f e.function).find? fun o => extent ≤ o.total with
  | none =>
    have hshort := List.find?_eq_none.1 hfind _ (h.offered henables)
    simp at hshort
    omega
  | some o =>
    have hmem := List.mem_of_find?_eq_some hfind
    exact ⟨o, rfl, (mem_ofFunction hmem).1, candidateEraser_of_find? henables hfind⟩

/-- **A candidate has a candidate eraser**, and no other function has one. -/
theorem candidate_iff : chip.Candidate extent allow i ↔
    ∃ e, chip.CandidateEraser extent allow e ∧ e.function = i := by
  constructor
  · rintro ⟨x, n, hsupply, rfl, hn⟩
    obtain ⟨f, r, henables, -⟩ := id hsupply
    obtain ⟨o, -, hfun, hcandidate⟩ := hsupply.exists_find? hn henables
    exact ⟨o.eraser, hcandidate, hfun⟩
  · rintro ⟨e, h, rfl⟩
    obtain ⟨n, hsupply, hn⟩ := h.supplied
    exact ⟨e, n, hsupply, rfl, hn⟩

/-- The candidate erasers in the order of their functions. -/
def candidates (chip : Chip) (extent : ℕ) (allow : ℕ → Bool) : List Eraser :=
  (chip.offered allow).filterMap (Coverage.candidate? extent)

theorem mem_candidates : e ∈ chip.candidates extent allow ↔
    chip.CandidateEraser extent allow e := by
  unfold candidates Coverage.candidate?
  rw [List.mem_filterMap]
  constructor
  · rintro ⟨offers, hoffers, hcandidate⟩
    obtain ⟨o, hfind, rfl⟩ := Option.map_eq_some_iff.1 hcandidate
    obtain ⟨i, f, henables, rfl⟩ := mem_offered.1 hoffers
    exact candidateEraser_of_find? henables hfind
  · intro h
    obtain ⟨n, hsupply, hn⟩ := h.supplied
    obtain ⟨f, r, henables, -⟩ := id hsupply
    obtain ⟨o, hfind, hfun, hcandidate⟩ := hsupply.exists_find? hn henables
    refine ⟨_, mem_offered.2 ⟨_, f, henables, rfl⟩, ?_⟩
    rw [hfind, Option.map_some, hcandidate.unique h hfun]

/-- The candidate erasers are in the order of their functions. -/
theorem candidates_ascend (chip : Chip) (extent : ℕ) (allow : ℕ → Bool) :
    (chip.candidates extent allow).Pairwise fun a b => a.function < b.function := by
  have hmem : ∀ {offers : List Coverage} {a : Eraser}, Coverage.candidate? extent offers = some a →
      ∃ o ∈ offers, o.eraser = a := by
    intro offers a ha
    obtain ⟨o, hfind, rfl⟩ := Option.map_eq_some_iff.1 ha
    exact ⟨o, List.mem_of_find?_eq_some hfind, rfl⟩
  refine List.pairwise_filterMap.2 ((offered_ascend chip allow).imp ?_)
  intro l l' h a ha b hb
  obtain ⟨o, ho, rfl⟩ := hmem ha
  obtain ⟨o', ho', rfl⟩ := hmem hb
  exact h o ho o' ho'

end Chip

end Reflash
