import Reflash.Proofs.Plan.Offers

/-!
# The eraser catalog

Which erasers are selected, told without the order in which the functions are visited.

The functions are visited once, but what they offer is used twice: the candidate erasers are
inserted into a sorted list (`Eraser.register`), and what falls short competes for the
fallback. `gather_offered` takes the two apart.

* `mem_covering_iff`: of the candidate erasers with one block size, the list keeps that of the
  lowest function.
* `nesting_dropped`: why an eraser of the list is dropped.
* `foldl_larger_first`: the fallback is the first offer that covers most.
* `selectErasers_catalog`: what the selection comes to.
-/

namespace Reflash

variable {chip : Chip} {extent : ℕ} {allow : ℕ → Bool} {e x : Eraser} {l es : List Eraser}
  {o : Coverage} {offers : List Coverage}

/-! ## The sorted list -/

/-- Inserts an eraser, unless its block size is there already. -/
def Eraser.register (l : List Eraser) (e : Eraser) : List Eraser :=
  match e.insert l with
  | .ok l' => l'
  | .error _ => l

theorem register_sorted (hl : l.Pairwise fun a b => a.blockSize < b.blockSize) :
    (Eraser.register l e).Pairwise fun a b => a.blockSize < b.blockSize := by
  unfold Eraser.register
  split
  · rename_i l' hins
    exact insert_sorted hins hl
  · exact hl

theorem mem_register (hl : l.Pairwise fun a b => a.blockSize < b.blockSize) :
    x ∈ Eraser.register l e ↔ x ∈ l ∨ x = e ∧ ∀ y ∈ l, y.blockSize ≠ e.blockSize := by
  unfold Eraser.register
  split
  · rename_i hins
    have hnew := insert_ok_new hins hl
    rw [mem_insert hins, or_comm, and_iff_left hnew]
  · rename_i other hins
    obtain ⟨hold, hsize⟩ := insert_error hins
    simp only [iff_self_or]
    intro h
    exact absurd hsize (h.2 other hold)

theorem foldl_register_sorted (hl : l.Pairwise fun a b => a.blockSize < b.blockSize) :
    (es.foldl Eraser.register l).Pairwise fun a b => a.blockSize < b.blockSize := by
  induction es generalizing l with
  | nil => exact hl
  | cons e es ih => exact ih (register_sorted hl)

/-- **One eraser after the other**: of those with one block size the first is inserted, unless the
block size was there before. -/
theorem mem_foldl_register (hl : l.Pairwise fun a b => a.blockSize < b.blockSize) :
    x ∈ es.foldl Eraser.register l ↔ x ∈ l ∨ (∀ y ∈ l, y.blockSize ≠ x.blockSize) ∧
      es.find? (fun c => c.blockSize = x.blockSize) = some x := by
  induction es generalizing l with
  | nil => simp
  | cons e es ih =>
    rw [List.foldl_cons, ih (register_sorted hl), List.find?_cons]
    simp only [mem_register hl]
    by_cases hsize : e.blockSize = x.blockSize
    · -- after `e` the block size is there, and whatever follows does not count
      simp only [hsize, decide_true]
      constructor
      · rintro ((h | ⟨rfl, hnew⟩) | ⟨hnew, -⟩)
        · exact .inl h
        · exact .inr ⟨hnew, rfl⟩
        · by_cases hold : ∀ y ∈ l, y.blockSize ≠ x.blockSize
          · exact absurd hsize (hnew e (.inr ⟨rfl, hold⟩))
          · push Not at hold
            obtain ⟨y, hy, hyx⟩ := hold
            exact absurd hyx (hnew y (.inl hy))
      · rintro (h | ⟨hnew, he⟩)
        · exact .inl (.inl h)
        · exact .inl (.inr ⟨(Option.some.inj he).symm, hnew⟩)
    · -- `e` has another block size
      have hne : x ≠ e := fun h => hsize (h ▸ rfl)
      simp only [hsize, decide_false, hne, false_and, or_false]
      refine or_congr_right (and_congr_left fun _ => ⟨fun h y hy => h y (.inl hy), ?_⟩)
      rintro h y (hy | ⟨rfl, -⟩)
      · exact h y hy
      · exact hsize

namespace Chip

/-- The candidate erasers sorted by block size, each size once. -/
def covering (chip : Chip) (extent : ℕ) (allow : ℕ → Bool) : List Eraser :=
  (chip.candidates extent allow).foldl Eraser.register []

theorem covering_sorted (chip : Chip) (extent : ℕ) (allow : ℕ → Bool) :
    (chip.covering extent allow).Pairwise fun a b => a.blockSize < b.blockSize :=
  foldl_register_sorted List.Pairwise.nil

/-- Of the candidate erasers with one block size, the first one is there. -/
theorem mem_covering : x ∈ chip.covering extent allow ↔
    (chip.candidates extent allow).find? (fun c => c.blockSize = x.blockSize) = some x := by
  unfold covering
  rw [mem_foldl_register List.Pairwise.nil]
  simp

/-- Every candidate eraser has one with its block size there, of a function that is no higher. -/
theorem CandidateEraser.exists_covering (h : chip.CandidateEraser extent allow x) :
    ∃ e ∈ chip.covering extent allow, e.blockSize = x.blockSize ∧ e.function ≤ x.function := by
  have hx := mem_candidates.2 h
  cases hfind : (chip.candidates extent allow).find? fun c => c.blockSize = x.blockSize with
  | none =>
    have hother := List.find?_eq_none.1 hfind x hx
    simp at hother
  | some e =>
    have hsize := List.find?_some hfind
    rw [decide_eq_true_eq] at hsize
    refine ⟨e, ?_, hsize, find?_least (candidates_ascend chip extent allow) hfind hx (by simp)⟩
    rw [mem_covering, hsize, hfind]

/-- **Of the candidate erasers with one block size**, that of the lowest function is there. -/
theorem mem_covering_iff : x ∈ chip.covering extent allow ↔
    chip.CandidateEraser extent allow x ∧ ∀ c, chip.CandidateEraser extent allow c →
      c.blockSize = x.blockSize → x.function ≤ c.function := by
  have hlowest : ∀ {x : Eraser}, x ∈ chip.covering extent allow →
      chip.CandidateEraser extent allow x ∧ ∀ c, chip.CandidateEraser extent allow c →
        c.blockSize = x.blockSize → x.function ≤ c.function := by
    intro x hx
    have hfind := mem_covering.1 hx
    refine ⟨mem_candidates.1 (List.mem_of_find?_eq_some hfind), fun c hc hsize => ?_⟩
    exact find?_least (candidates_ascend chip extent allow) hfind (mem_candidates.2 hc)
      (by simpa using hsize)
  constructor
  · exact hlowest
  · rintro ⟨hx, hleast⟩
    obtain ⟨e, he, hsize, hle⟩ := hx.exists_covering
    have hcandidate := (hlowest he).1
    rwa [← hcandidate.unique hx (Nat.le_antisymm hle (hleast e hcandidate hsize))]

/-- Without a candidate there is nothing to sort. -/
theorem covering_eq_nil_iff : chip.covering extent allow = [] ↔
    ¬∃ i, chip.Candidate extent allow i := by
  constructor
  · rintro hnil ⟨i, hi⟩
    obtain ⟨x, hx, -⟩ := candidate_iff.1 hi
    obtain ⟨e, he, -⟩ := hx.exists_covering
    simp [hnil] at he
  · intro hnone
    rw [List.eq_nil_iff_forall_not_mem]
    intro e he
    exact hnone ⟨e.function, candidate_iff.2 ⟨e, (mem_covering_iff.1 he).1, rfl⟩⟩

end Chip

/-! ## Dropping what does not nest -/

/-- Of the erasers on the list with finer blocks than `x` has, `e` is one with the coarsest. -/
structure Coarsest (es : List Eraser) (x e : Eraser) : Prop where
  mem : e ∈ es
  finer : e.blockSize < x.blockSize
  most : ∀ c ∈ es, c.blockSize < x.blockSize → c.blockSize ≤ e.blockSize

/-- **What is dropped** is not made up of blocks of the coarsest finer eraser that is kept. -/
theorem nesting_dropped {finer : Eraser}
    (hsorted : (finer :: es).Pairwise fun a b => a.blockSize < b.blockSize) (hx : x ∈ es)
    (hdropped : x ∉ (nesting finer es).1) :
    ∃ e, Coarsest (finer :: (nesting finer es).1) x e ∧ ¬e.blockSize ∣ x.blockSize := by
  induction es generalizing finer with
  | nil => cases hx
  | cons y ys ih =>
    obtain ⟨hfiner, hys⟩ := List.pairwise_cons.1 hsorted
    obtain ⟨hy, htail⟩ := List.pairwise_cons.1 hys
    have hskip : (finer :: ys).Pairwise fun a b => a.blockSize < b.blockSize :=
      List.pairwise_cons.2 ⟨fun c hc => hfiner c (List.mem_cons_of_mem y hc), htail⟩
    simp only [nesting] at hdropped ⊢
    split at hdropped
    · -- `y` is kept, and `finer` is finer still
      rename_i hdvd
      rw [if_pos hdvd]
      obtain ⟨hxy, hdropped⟩ := not_or.1 (mt List.mem_cons.2 hdropped)
      obtain ⟨e, he, hnot⟩ := ih hys ((List.mem_cons.1 hx).resolve_left hxy) hdropped
      refine ⟨e, ⟨List.mem_cons_of_mem finer he.mem, he.finer, ?_⟩, hnot⟩
      intro c hc hlt
      rcases List.mem_cons.1 hc with rfl | hc
      · exact (hfiner e (((nesting_sublist y ys).cons_cons y).subset he.mem)).le
      · exact he.most c hc hlt
    · rename_i hdvd
      rw [if_neg hdvd]
      rcases List.mem_cons.1 hx with rfl | hx
      · -- all that is kept behind `x` is coarser
        refine ⟨finer, ⟨List.mem_cons_self, hfiner _ List.mem_cons_self, ?_⟩,
          fun h => hdvd (Nat.mod_eq_zero_of_dvd h)⟩
        intro c hc hlt
        rcases List.mem_cons.1 hc with rfl | hc
        · exact Nat.le_refl _
        · have := hy c ((nesting_sublist _ _).subset hc)
          omega
      · exact ih hskip hx hdropped

/-! ## The fallback -/

/-- **The fallback** is the first offer that covers most: those before it cover less, those behind it
no more. -/
theorem foldl_larger_first {b : Coverage} (h : offers.foldl Coverage.larger (some b) = some o) :
    ∃ before after, b :: offers = before ++ o :: after ∧ (∀ c ∈ before, c.total < o.total) ∧
      ∀ c ∈ after, c.total ≤ o.total := by
  induction offers generalizing b with
  | nil =>
    cases h
    exact ⟨[], [], rfl, by simp, by simp⟩
  | cons c cs ih =>
    rw [List.foldl_cons, Coverage.larger] at h
    by_cases hlt : b.total < c.total
    · simp only [hlt, if_true] at h
      obtain ⟨before, after, hsplit, hbefore, hafter⟩ := ih h
      have hle : c.total ≤ o.total := (foldl_larger h).2.1 c rfl
      refine ⟨b :: before, after, by rw [hsplit]; rfl, ?_, hafter⟩
      intro d hd
      rcases List.mem_cons.1 hd with rfl | hd
      · omega
      · exact hbefore d hd
    · simp only [hlt, if_false] at h
      obtain ⟨before, after, hsplit, hbefore, hafter⟩ := ih h
      cases before with
      | nil =>
        obtain ⟨rfl, rfl⟩ := List.cons.inj hsplit
        refine ⟨[], c :: cs, rfl, by simp, ?_⟩
        intro d hd
        rcases List.mem_cons.1 hd with rfl | hd
        · omega
        · exact hafter d hd
      | cons b' before =>
        obtain ⟨rfl, rfl⟩ := List.cons.inj hsplit
        have hb := hbefore b List.mem_cons_self
        refine ⟨b :: c :: before, after, rfl, ?_, hafter⟩
        simp only [List.forall_mem_cons] at hbefore ⊢
        exact ⟨hb, by omega, hbefore.2⟩

/-- The fallback of all offers is the largest one, if there is any. -/
theorem foldl_larger_offered (chip : Chip) (allow : ℕ → Bool) : (∃ e n, chip.Largest allow e n ∧
      (chip.offered allow).flatten.foldl Coverage.larger none = some ⟨e, n⟩) ∨
    (∀ e n, ¬chip.Supplies allow e n) ∧
      (chip.offered allow).flatten.foldl Coverage.larger none = none := by
  have hmem : ∀ e n, (⟨e, n⟩ : Coverage) ∈ (chip.offered allow).flatten ↔
      chip.Supplies allow e n := fun e n => Chip.mem_flatten_offered
  have hascend := Chip.flatten_offered_ascend chip allow
  cases hoffers : (chip.offered allow).flatten with
  | nil =>
    right
    refine ⟨fun e n hsupply => ?_, rfl⟩
    have := (hmem e n).2 hsupply
    simp [hoffers] at this
  | cons b offers =>
    left
    rw [hoffers] at hmem hascend
    rw [List.foldl_cons, show Coverage.larger none b = some b from rfl]
    cases hfold : offers.foldl Coverage.larger (some b) with
    | none => exact absurd hfold (foldl_larger_ne_none (.inl (Option.some_ne_none b)))
    | some o =>
      obtain ⟨before, after, hsplit, hbefore, hafter⟩ := foldl_larger_first hfold
      rw [hsplit] at hmem hascend
      refine ⟨o.eraser, o.total, ⟨(hmem _ _).1 (by simp), ?_, ?_⟩, rfl⟩
      · intro x m hx
        rcases List.mem_append.1 ((hmem x m).2 hx) with hx | hx
        · exact (hbefore _ hx).le
        · rcases List.mem_cons.1 hx with hx | hx
          · rw [← hx]
          · exact hafter _ hx
      · intro x hx
        rcases List.mem_append.1 ((hmem x _).2 hx) with hx | hx
        · exact absurd (hbefore _ hx) (Nat.lt_irrefl _)
        · rcases List.mem_cons.1 hx with hx | hx
          · rw [← hx]
            simp
          · exact ((List.pairwise_cons.1 (List.pairwise_append.1 hascend).2.1).1 _ hx).imp_right
              fun h => ⟨h.1, h.2.le⟩

/-! ## Both uses of what is offered -/

theorem add_eq (c : Candidates) (extent : ℕ) (offers : List Coverage) :
    (c.add extent offers).1 =
      ⟨(Coverage.candidate? extent offers).toList.foldl Eraser.register c.covering,
        (offers.takeWhile fun o => o.total < extent).foldl Coverage.larger c.fallback⟩ := by
  unfold Candidates.add Coverage.candidate?
  cases offers.find? fun o => extent ≤ o.total with
  | none => rfl
  | some o =>
    dsimp only [Option.map_some, Option.toList_some, List.foldl_cons, List.foldl_nil]
    unfold Eraser.register
    cases o.eraser.insert c.covering <;> rfl

theorem foldl_add (c : Candidates) (extent : ℕ) (all : List (List Coverage)) :
    all.foldl (fun c offers => (c.add extent offers).1) c =
      ⟨(all.filterMap (Coverage.candidate? extent)).foldl Eraser.register c.covering,
        (all.flatMap fun offers => offers.takeWhile fun o => o.total < extent).foldl
          Coverage.larger c.fallback⟩ := by
  induction all generalizing c with
  | nil => rfl
  | cons offers all ih =>
    rw [List.foldl_cons, ih, add_eq, List.flatMap_cons, List.foldl_append, List.filterMap_cons]
    cases Coverage.candidate? extent offers <;> rfl

/-- **What is gathered** from all functions. -/
theorem gather_offered (chip : Chip) (extent : ℕ) (allow : ℕ → Bool) :
    Candidates.gather {} extent allow
      (chip.eraseFunctions.take Chip.maxEraseFunctions).zipIdx =
        ⟨chip.covering extent allow,
          ((chip.offered allow).flatMap fun offers =>
            offers.takeWhile fun o => o.total < extent).foldl Coverage.larger none⟩ := by
  unfold Chip.covering Chip.candidates
  rw [← foldl_add {} extent (chip.offered allow), Chip.offered, List.foldl_map, List.foldl_filter]
  rfl

/-- Without a candidate, all that is offered falls short. -/
theorem takeWhile_offered (hnone : ¬∃ i, chip.Candidate extent allow i) :
    ((chip.offered allow).flatMap fun offers => offers.takeWhile fun o => o.total < extent) =
      (chip.offered allow).flatten := by
  have hshort : ∀ offers ∈ chip.offered allow,
      offers.takeWhile (fun o => o.total < extent) = offers := by
    intro offers hoffers
    refine List.takeWhile_eq_self_iff.2 fun o ho => ?_
    have hsupply := Chip.mem_flatten_offered.1 (List.mem_flatten.2 ⟨offers, hoffers, ho⟩)
    rw [decide_eq_true_eq]
    by_contra hreach
    exact hnone ⟨o.eraser.function, o.eraser, o.total, hsupply, rfl, by omega⟩
  rw [List.flatMap_def, List.map_congr_left hshort, List.map_id']

/-! ## The selection -/

/-- The list of candidate erasers that is selected. -/
structure Catalog (chip : Chip) (extent : ℕ) (allow : ℕ → Bool) (es : List Eraser) : Prop where
  nonempty : es ≠ []
  few : es.length ≤ Chip.maxEraseFunctions
  candidates : ∀ e ∈ es, chip.CandidateEraser extent allow e
  /-- Block sizes ascend, and coarser blocks are made up of whole finer ones. -/
  nested : Nested es
  /-- No candidate eraser has smaller blocks than the first one of the list. -/
  finest : ∀ e ∈ es.head?, ∀ c, chip.CandidateEraser extent allow c → e.blockSize ≤ c.blockSize
  /-- No lower function has a candidate eraser with the same block size. -/
  lowest : ∀ e ∈ es, ∀ c, chip.CandidateEraser extent allow c → c.blockSize = e.blockSize →
    e.function ≤ c.function
  /-- A candidate eraser that is not listed has the block size of a lower function that is, or its
  blocks are not made up of those of the coarsest finer eraser that is. -/
  unlisted : ∀ c, chip.CandidateEraser extent allow c → c ∉ es →
    (∃ e ∈ es, e.blockSize = c.blockSize ∧ e.function < c.function) ∨
      ∃ e, Coarsest es c e ∧ ¬e.blockSize ∣ c.blockSize

/-- There are not more candidate erasers than functions. -/
theorem length_covering_le (chip : Chip) (extent : ℕ) (allow : ℕ → Bool) :
    (chip.covering extent allow).length ≤ Chip.maxEraseFunctions := by
  have hnodup : ((chip.covering extent allow).map Eraser.function).Nodup := by
    refine List.pairwise_map.2 ((Chip.covering_sorted chip extent allow).imp_of_mem ?_)
    intro a b ha hb hlt hfun
    have heq := (Chip.mem_covering_iff.1 ha).1.unique (Chip.mem_covering_iff.1 hb).1 hfun
    rw [heq] at hlt
    omega
  have hsub : (chip.covering extent allow).map Eraser.function ⊆
      List.range Chip.maxEraseFunctions := by
    intro i hi
    obtain ⟨e, he, rfl⟩ := List.mem_map.1 hi
    obtain ⟨n, ⟨f, r, henables, -⟩, -⟩ := (Chip.mem_covering_iff.1 he).1.supplied
    exact List.mem_range.2 henables.few
  simpa using (hnodup.subperm hsub).length_le

/-- What is kept of the sorted list is a catalog. -/
theorem catalog_of_covering {finest : Eraser} {coarser : List Eraser}
    (h : chip.covering extent allow = finest :: coarser) :
    Catalog chip extent allow (finest :: (nesting finest coarser).1) := by
  have hsorted := Chip.covering_sorted chip extent allow
  have hkept : ∀ e ∈ finest :: (nesting finest coarser).1, e ∈ chip.covering extent allow := by
    intro e he
    rw [h]
    exact ((nesting_sublist finest coarser).cons_cons finest).subset he
  have hlength := length_covering_le chip extent allow
  rw [h] at hsorted hlength
  refine ⟨List.cons_ne_nil _ _, ?_, fun e he => (Chip.mem_covering_iff.1 (hkept e he)).1,
    nesting_nested hsorted, ?_, fun e he => (Chip.mem_covering_iff.1 (hkept e he)).2, ?_⟩
  · exact (((nesting_sublist finest coarser).cons_cons finest).length_le).trans hlength
  · intro e he c hc
    cases he
    obtain ⟨c', hc', hsize, -⟩ := hc.exists_covering
    rw [h] at hc'
    rcases List.mem_cons.1 hc' with rfl | hc'
    · exact hsize.le
    · exact (((List.pairwise_cons.1 hsorted).1 c' hc').trans_eq hsize).le
  · intro c hc hunlisted
    obtain ⟨c', hc', hsize, hle⟩ := hc.exists_covering
    have hcandidate := (Chip.mem_covering_iff.1 hc').1
    by_cases hlisted : c' ∈ finest :: (nesting finest coarser).1
    · refine .inl ⟨c', hlisted, hsize, Nat.lt_of_le_of_ne hle fun hfun => hunlisted ?_⟩
      rwa [← hcandidate.unique hc hfun]
    · -- what has the block size of `c` in the sorted list is dropped
      rw [h] at hc'
      obtain ⟨hne, hdropped⟩ := not_or.1 (mt List.mem_cons.2 hlisted)
      obtain ⟨e, he, hnot⟩ := nesting_dropped hsorted ((List.mem_cons.1 hc').resolve_left hne)
        hdropped
      refine .inr ⟨e, ⟨he.mem, ?_, ?_⟩, hsize ▸ hnot⟩
      · exact hsize ▸ he.finer
      · exact hsize ▸ he.most

/-- **The selected erasers**, for every chip and extent and a filter with known answers. If there is
a candidate, they are a catalog of the candidate erasers. Otherwise the eraser that covers most is
taken alone. Only if no region can be used there is none, and there is always room. -/
theorem selectErasers_catalog {σ : Type} {filter : EraserFilter σ} {I : σ → Prop} {s : Session σ}
    (hf : filter.Answers chip I allow) (hs : I s.device) :
    Ends (selectErasers chip extent filter) s fun r s' => I s'.device ∧
      ((∃ i, chip.Candidate extent allow i) → ∃ es, r = .ok es ∧ Catalog chip extent allow es) ∧
      ((¬∃ i, chip.Candidate extent allow i) → (∃ e n, chip.Supplies allow e n) →
        ∃ e n, chip.Largest allow e n ∧ r = .ok [e]) ∧
      (r = .error .noEraser ↔ ¬∃ e n, chip.Supplies allow e n) ∧
      r ≠ .error .invalidChip := by
  refine (selectErasers_answers hf hs).mono ?_
  rintro r s' ⟨hI, rfl⟩
  refine ⟨hI, ?_⟩
  rw [gather_offered]
  unfold Candidates.selection
  cases hcovering : chip.covering extent allow with
  | cons finest coarser =>
    obtain ⟨n, hsupply, -⟩ :=
      ((catalog_of_covering hcovering).candidates finest List.mem_cons_self).supplied
    have hcandidate : ∃ i, chip.Candidate extent allow i := by
      by_contra hnone
      rw [Chip.covering_eq_nil_iff.2 hnone] at hcovering
      cases hcovering
    refine ⟨fun _ => ⟨_, rfl, catalog_of_covering hcovering⟩, fun hnone => absurd hcandidate hnone,
      iff_of_false nofun (not_not_intro ⟨finest, n, hsupply⟩), nofun⟩
  | nil =>
    have hnone := Chip.covering_eq_nil_iff.1 hcovering
    rw [takeWhile_offered hnone]
    rcases foldl_larger_offered chip allow with
      ⟨e, n, hlargest, hfold⟩ | ⟨hempty, hfold⟩
    · rw [hfold]
      exact ⟨fun h => absurd h hnone, fun _ _ => ⟨e, n, hlargest, rfl⟩,
        iff_of_false nofun (not_not_intro ⟨e, n, hlargest.supplied⟩), nofun⟩
    · rw [hfold]
      have hnot : ¬∃ e n, chip.Supplies allow e n := fun ⟨e, n, h⟩ => hempty e n h
      exact ⟨fun h => absurd h hnone, fun _ h => absurd h hnot, iff_of_true rfl hnot, nofun⟩

/-- A chip of 24 bytes. Of two functions with blocks of four bytes the second one is left out, and
blocks of six bytes do not nest. -/
def Chip.crowded : Chip :=
  { Chip.small with
    totalSize := 24, eraseFunctions := [.uniform 8 3, .uniform 4 6, .uniform 6 4, .uniform 4 6] }

/-- The selection for the whole chip, and the one for more than any function covers. -/
theorem selectErasers_catalog_crowded :
    (selectErasers Chip.crowded 24 EraserFilter.all (⟨(), #[], #[]⟩ : Session Unit)).1 =
      .ok [⟨1, 0, 4, by decide⟩, ⟨0, 0, 8, by decide⟩] ∧
    Catalog Chip.crowded 24 (fun _ => true) [⟨1, 0, 4, by decide⟩, ⟨0, 0, 8, by decide⟩] ∧
    (selectErasers Chip.crowded 25 EraserFilter.all (⟨(), #[], #[]⟩ : Session Unit)).1 =
      .ok [⟨0, 0, 8, by decide⟩] ∧
    ∃ n, Chip.crowded.Largest (fun _ => true) ⟨0, 0, 8, by decide⟩ n := by
  have hall := answers_all Chip.crowded fun _ : Unit => True
  have hsupply : Chip.crowded.Supplies (fun _ => true) ⟨0, 0, 8, by decide⟩ 24 :=
    ⟨_, _, ⟨by decide, rfl, rfl, rfl⟩, rfl, rfl, rfl⟩
  have hcovered := @selectErasers_catalog Chip.crowded 24 _ Unit _ _ ⟨(), #[], #[]⟩ hall trivial
  obtain ⟨es, hes, hcatalog⟩ := hcovered.2.1 ⟨0, _, 24, hsupply, rfl, Nat.le_refl _⟩
  cases hes
  have hshort := @selectErasers_catalog Chip.crowded 25 _ Unit _ _ ⟨(), #[], #[]⟩ hall trivial
  have hnone : ¬∃ i, Chip.crowded.Candidate 25 (fun _ => true) i :=
    Chip.covering_eq_nil_iff.1 rfl
  obtain ⟨e, n, hlargest, he⟩ := hshort.2.2.1 hnone ⟨_, 24, hsupply⟩
  cases he
  exact ⟨rfl, hcatalog, rfl, n, hlargest⟩

end Reflash
