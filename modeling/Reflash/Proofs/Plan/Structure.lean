import Reflash.Proofs.Plan.Folding
import Reflash.Proofs.Plan.Settling

/-!
# The structure of a plan

A plan is made from the erasers that were selected (`Plan.ofErasers`). Whatever the
images, the chip and the filter are, its units are well formed: they consist of whole
aligned blocks on the chip, they are ordered by block size and then by address, runs
of one block size are as long as possible, and no two units share an address.

* `prepare_ends`: a plan is made exactly when both images fit and erasers are found.
* `prepare_wellFormed`: every plan is well formed.
-/

namespace Reflash

variable {σ : Type} {chip : Chip} {old new : Image} {extent : ℕ} {filter : EraserFilter σ}
  {s : Session σ} {es : List Eraser}

/-- The plan with these erasers. -/
def Plan.ofErasers (chip : Chip) (old new : Image) (es : List Eraser) : Plan :=
  ⟨old, new, ChangeMap.units (ChangeMap.compare chip es old new)⟩

theorem checkImage_eq_ok {m : Image} {u : Unit} :
    chip.checkImage m = .ok u ↔ m.size = chip.totalSize := by
  unfold Chip.checkImage
  split <;> simp [*]

/-- Two images of the size of the chip get the plan with the selected erasers, or the error of
the selection. -/
theorem prepare_ends (hold : old.size = chip.totalSize) (hnew : new.size = chip.totalSize)
    {R : Except FlashError (List Eraser) → σ → Prop}
    (h : Ends (selectErasers chip extent filter) s fun r s' => R r s'.device) :
    Ends (Plan.prepare chip old new extent filter) s fun r s' =>
      ∃ r', R r' s'.device ∧ r = r'.map (Plan.ofErasers chip old new) := by
  unfold Plan.prepare
  refine Ends.exceptThen (fun _ _ => Ends.exceptThen (fun _ _ => ?_) ?_) ?_
  · refine h.andThen (fun es s' hR => ?_) fun e s' hR => ⟨.error e, hR, rfl⟩
    exact Ends.noteThen (Ends.notesThen (ends_pure ⟨.ok es, hR, rfl⟩))
  · intro e he
    rw [(checkImage_eq_ok (u := ())).2 hnew] at he
    cases he
  · intro e he
    rw [(checkImage_eq_ok (u := ())).2 hold] at he
    cases he

/-- An image of another size is refused before the filter is asked. -/
theorem prepare_refused (h : ¬(old.size = chip.totalSize ∧ new.size = chip.totalSize)) :
    Ends (Plan.prepare chip old new extent filter) s fun r s' =>
      s' = s ∧ ∃ e, r = .error e := by
  unfold Plan.prepare
  refine Ends.exceptThen (fun _ h1 => Ends.exceptThen (fun _ h2 => ?_) ?_) ?_
  · exact absurd ⟨checkImage_eq_ok.1 h1, checkImage_eq_ok.1 h2⟩ h
  · exact fun e _ => ⟨rfl, e, rfl⟩
  · exact fun e _ => ⟨rfl, e, rfl⟩

/-- The result of planning, from that of the selection. -/
theorem prepare_result {r : Except FlashError (List Eraser)}
    (h : (selectErasers chip extent filter s).1 = r) :
    (Plan.prepare chip old new extent filter s).1 = (chip.checkImage old).bind fun _ =>
      (chip.checkImage new).bind fun _ => r.map (Plan.ofErasers chip old new) := by
  have hprepare : Ends (Plan.prepare chip old new extent filter) s fun r' _ =>
      r' = (chip.checkImage old).bind fun _ =>
        (chip.checkImage new).bind fun _ => r.map (Plan.ofErasers chip old new) := by
    unfold Plan.prepare
    refine Ends.exceptThen (fun _ hold => Ends.exceptThen (fun _ hnew => ?_) ?_) ?_
    · rw [hold, hnew]
      refine Ends.andThen (R := fun r' _ => r' = r) h ?_ ?_
      · rintro es s' rfl
        exact Ends.noteThen (Ends.notesThen (ends_pure rfl))
      · rintro e s' rfl
        rfl
    · intro e hnew
      rw [hold, hnew]
      rfl
    · intro e hold
      rw [hold]
      rfl
  exact hprepare

/-- With the selected erasers, the plan is made. -/
theorem prepare_ok (hold : old.size = chip.totalSize) (hnew : new.size = chip.totalSize)
    (hes : (selectErasers chip extent filter s).1 = .ok es) :
    (Plan.prepare chip old new extent filter s).1 = .ok (Plan.ofErasers chip old new es) := by
  rw [prepare_result hes, (checkImage_eq_ok (u := ())).2 hold, (checkImage_eq_ok (u := ())).2 hnew]
  rfl

/-- A plan that is made is that of the selected erasers, which are nested. -/
theorem prepare_eq {plan : Plan} (h : (Plan.prepare chip old new extent filter s).1 = .ok plan) :
    old.size = chip.totalSize ∧ new.size = chip.totalSize ∧ ∃ es,
      (selectErasers chip extent filter s).1 = .ok es ∧ es ≠ [] ∧ Nested es ∧
      plan = Plan.ofErasers chip old new es := by
  by_cases hsize : old.size = chip.totalSize ∧ new.size = chip.totalSize
  · have hprepare : Ends (Plan.prepare chip old new extent filter) s _ :=
      prepare_ends hsize.1 hsize.2 (R := fun r _ => r = (selectErasers chip extent filter s).1) rfl
    obtain ⟨_, rfl, hmap⟩ := hprepare
    have hends : Ends (selectErasers chip extent filter) s _ :=
      selectErasers_ends (vouches_trivial filter chip) trivial
    rw [h] at hmap
    cases hsel : (selectErasers chip extent filter s).1 with
    | error e =>
      rw [hsel] at hmap
      cases hmap
    | ok es =>
      rw [hsel] at hmap
      cases hmap
      obtain ⟨hne, hes, -⟩ := hends.2 es hsel
      exact ⟨hsize.1, hsize.2, es, rfl, hne, hes, rfl⟩
  · have hrefused : Ends (Plan.prepare chip old new extent filter) s _ := prepare_refused hsize
    obtain ⟨-, e, he⟩ := hrefused
    rw [h] at he
    cases he

/-- **Every plan is one of selected erasers**, for which the filter vouches. -/
theorem prepare_selected {I : σ → Prop} {A : ℕ → Prop} (hf : filter.Vouches chip I A)
    (hs : I s.device) :
    Ends (Plan.prepare chip old new extent filter) s fun r s' => I s'.device ∧
      ∀ plan, r = .ok plan → old.size = chip.totalSize ∧ new.size = chip.totalSize ∧
        ∃ es, plan = Plan.ofErasers chip old new es ∧ es ≠ [] ∧ Nested es ∧
          ∀ e ∈ es, A e.function ∧ chip.Offers e := by
  by_cases hsize : old.size = chip.totalSize ∧ new.size = chip.totalSize
  · refine (prepare_ends hsize.1 hsize.2 (R := fun r d => I d ∧ _)
      (selectErasers_ends hf hs)).mono ?_
    rintro r s' ⟨r', ⟨hI, hsel⟩, rfl⟩
    refine ⟨hI, fun plan hplan => ⟨hsize.1, hsize.2, ?_⟩⟩
    cases r' with
    | error e => cases hplan
    | ok es => cases hplan; exact ⟨es, rfl, hsel es rfl⟩
  · refine (prepare_refused hsize).mono ?_
    rintro r s' ⟨rfl, e, rfl⟩
    exact ⟨hs, by rintro plan ⟨⟩⟩

/-! ## Well-formed plans -/

/-- Whole aligned blocks on a chip of `size` bytes, ordered by block size and address, in maximal
runs, without overlap. -/
structure Plan.WellFormed (p : Plan) (size : ℕ) : Prop where
  nonempty : ∀ u ∈ p.units, 1 ≤ u.blockCount
  aligned : ∀ u ∈ p.units, u.blockSize ∣ u.offset
  inside : ∀ u ∈ p.units, u.stop ≤ size
  ordered : p.units.Pairwise fun u v => u.blockSize < v.blockSize ∨
    u.blockSize = v.blockSize ∧ u.offset < v.offset ∧ u.stop < v.offset
  disjoint : p.units.Pairwise fun u v => ∀ a ∈ u.span, a ∉ v.span
  total : p.totalBytes ≤ size

/-- Spans without a common address fit side by side. -/
theorem sum_len_le (spans : List Span) {n : ℕ} (hin : ∀ t ∈ spans, t.stop ≤ n)
    (hdis : spans.Pairwise fun t u => ∀ a ∈ t, a ∉ u) : (spans.map Span.len).sum ≤ n := by
  have hmem : ∀ (t : Span) a, a ∈ List.range' t.start t.len ↔ a ∈ t := fun t a => by
    rw [List.mem_range'_1, Span.mem_def]
  -- the addresses of all spans one after the other, of which none comes twice
  have hnodup : (spans.flatMap fun t => List.range' t.start t.len).Nodup := by
    refine List.nodup_flatMap.2 ⟨fun t _ => List.nodup_range', hdis.imp fun {t u} h a ht hu => ?_⟩
    exact h a ((hmem t a).1 ht) ((hmem u a).1 hu)
  have hsub : (spans.flatMap fun t => List.range' t.start t.len) ⊆ List.range n := by
    intro a ha
    obtain ⟨t, ht, ha⟩ := List.mem_flatMap.1 ha
    have h1 := ((hmem t a).1 ha).2
    have h2 := hin t ht
    rw [List.mem_range]
    unfold Span.stop at h2
    omega
  have := (hnodup.subperm hsub).length_le
  simpa [List.length_flatMap] using this

/-- Of things no two of which pass the test, at most one does. -/
theorem countP_le_one {α : Type} {p : α → Bool} {l : List α}
    (h : l.Pairwise fun x y => p x = true → ¬p y = true) : l.countP p ≤ 1 := by
  induction l with
  | nil => exact Nat.zero_le _
  | cons x l ih =>
    obtain ⟨hx, hl⟩ := List.pairwise_cons.1 h
    rw [List.countP_cons]
    split
    · rename_i hp
      rw [List.countP_eq_zero.2 fun y hy => hx y hy hp]
    · exact ih hl

namespace ChangeMap

open Comparison

theorem stacked_promoted (c : Comparison) (hes : Nested es) : Stacked (promoted c es) := by
  unfold Stacked
  rwa [map_eraser_promoted]

/-- All but the finest map mark only what they erase. -/
theorem promoted_solid (hes : Nested es) (hold : old.size = chip.totalSize)
    (hnew : new.size = chip.totalSize) :
    ∀ m ∈ (promoted (ofErasers chip es old new) es).tail, m.Solid := by
  intro m hm mark hmark hset
  obtain ⟨l, hl⟩ := List.mem_iff_getElem?.1 hm
  rw [List.getElem?_tail] at hl
  obtain ⟨j, hj⟩ := Array.mem_iff_getElem?.1 hmark
  have href := promoted_reflects hes hold hnew (l + 1) m hl
  have h1 := href.isSet j
  have h2 := href.erase j
  rw [if_neg (Nat.succ_ne_zero l), ← h2, hj] at h1
  exact h1.symm.trans hset

/-- A settled map has one mark for every whole block of the chip. -/
theorem settled_size (hes : Nested es) (hold : old.size = chip.totalSize)
    (hnew : new.size = chip.totalSize) :
    ∀ m ∈ settle (promoted (ofErasers chip es old new) es),
      m.marks.size = chip.totalSize / m.blockSize := by
  intro m hm
  obtain ⟨l, hl⟩ := List.mem_iff_getElem?.1 hm
  rw [getElem?_settle (stacked_promoted _ hes), Option.map_eq_some_iff] at hl
  obtain ⟨m₀, hm₀, rfl⟩ := hl
  have href := promoted_reflects hes hold hnew l m₀ hm₀
  simp only [clearedBy, Array.size_mapIdx, href.size, count]
  rw [← href.blockSize]
  rfl

end ChangeMap

open ChangeMap

theorem units_ofErasers (chip : Chip) (old new : Image) (es : List Eraser) :
    (Plan.ofErasers chip old new es).units =
      (settle (promoted (Comparison.ofErasers chip es old new) es)).flatMap mapUnits := by
  rw [Plan.ofErasers, compare_eq_settle, units]

/-- Every unit is a run of blocks of one settled map. -/
theorem mem_units_run {u : ProcessingUnit} (hu : u ∈ (Plan.ofErasers chip old new es).units) :
    ∃ m ∈ settle (promoted (Comparison.ofErasers chip es old new) es), ∃ first n,
      u = m.unit first n ∧ 0 < n ∧ first + n ≤ m.marks.size := by
  rw [units_ofErasers] at hu
  obtain ⟨m, hm, hu⟩ := List.mem_flatMap.1 hu
  exact ⟨m, hm, mem_mapUnits hu⟩

theorem units_inside (hes : Nested es) (hold : old.size = chip.totalSize)
    (hnew : new.size = chip.totalSize) {u : ProcessingUnit}
    (hu : u ∈ (Plan.ofErasers chip old new es).units) : u.stop ≤ chip.totalSize := by
  obtain ⟨m, hm, first, n, rfl, -, hle⟩ := mem_units_run hu
  rw [unit_stop]
  rw [settled_size hes hold hnew m hm] at hle
  exact (Nat.mul_le_mul_right _ hle).trans (Nat.div_mul_le_self _ _)

/-- Units of one map do not meet, because a run ends before the next one starts. Units of different
maps do not meet, because settled maps mark no common address. -/
theorem units_disjoint (hes : Nested es) (hold : old.size = chip.totalSize)
    (hnew : new.size = chip.totalSize) :
    (Plan.ofErasers chip old new es).units.Pairwise fun u v => ∀ a ∈ u.span, a ∉ v.span := by
  have hst := stacked_promoted (Comparison.ofErasers chip es old new) hes
  rw [units_ofErasers, List.pairwise_flatMap]
  refine ⟨fun m _ => (mapUnits_pairwise m).imp fun {u v} h a hu hv => ?_,
    (settle_disjoint hst (promoted_solid hes hold hnew)).imp fun {m k} h u hu v hv a hau hav => ?_⟩
  · have h1 := hu.2
    have h2 := hv.1
    have h3 := h.2
    simp only [ProcessingUnit.span, ProcessingUnit.stop] at h1 h2 h3
    omega
  · have hm := h a (mem_mapUnits_span.1 ⟨u, hu, hau⟩)
    rw [mem_mapUnits_span.1 ⟨v, hv, hav⟩] at hm
    cases hm

theorem units_ordered (chip : Chip) (old new : Image) (hes : Nested es) :
    (Plan.ofErasers chip old new es).units.Pairwise fun u v => u.blockSize < v.blockSize ∨
      u.blockSize = v.blockSize ∧ u.offset < v.offset ∧ u.stop < v.offset := by
  have hst := stacked_promoted (Comparison.ofErasers chip es old new) hes
  rw [units_ofErasers, List.pairwise_flatMap]
  constructor
  · intro m _
    refine (mapUnits_pairwise m).imp fun {u v} h => .inr ⟨h.1, ?_, h.2⟩
    exact (Nat.le_add_right u.offset u.size).trans_lt h.2
  · refine List.Pairwise.imp ?_ (List.pairwise_map.1 hst.settle)
    intro m k h u hu v hv
    left
    obtain ⟨_, _, rfl, -, -⟩ := mem_mapUnits hu
    obtain ⟨_, _, rfl, -, -⟩ := mem_mapUnits hv
    exact h.1

/-- **A plan with nested erasers is well formed.** -/
theorem wellFormed_ofErasers (hes : Nested es) (hold : old.size = chip.totalSize)
    (hnew : new.size = chip.totalSize) :
    (Plan.ofErasers chip old new es).WellFormed chip.totalSize := by
  have hdisjoint := units_disjoint hes hold hnew
  refine ⟨?_, ?_, fun u => units_inside hes hold hnew, units_ordered chip old new hes, hdisjoint,
    ?_⟩
  · intro u hu
    obtain ⟨m, -, first, n, rfl, hn, -⟩ := mem_units_run hu
    exact hn
  · intro u hu
    obtain ⟨m, -, first, n, rfl, -, -⟩ := mem_units_run hu
    exact Dvd.intro_left first rfl
  · have hsum := sum_len_le ((Plan.ofErasers chip old new es).units.map ProcessingUnit.span)
      (n := chip.totalSize) (fun t ht => ?_) (List.pairwise_map.2 hdisjoint)
    · rw [List.map_map, List.sum, List.foldr_map] at hsum
      exact hsum
    · obtain ⟨u, hu, rfl⟩ := List.mem_map.1 ht
      exact units_inside hes hold hnew hu

/-! ## A chip of 22 bytes -/

/-- Blocks of two, four and eight bytes. The last coarse blocks reach over the end of the chip. -/
def Chip.sample : Chip where
  vendor := "Sample"
  name := "S22"
  totalSize := 22
  pageSize := 4
  granularity := .byte
  eraseFunctions := [.uniform 8 3, .uniform 2 11, .uniform 4 6]

/-- Contents of the sample chip, some of them erased. -/
def Image.sample : Image :=
  #[0, 0, 0, 0, 0, 0, 0, 0, 0, 255, 255, 255, 0, 1, 2, 255, 255, 255, 255, 3, 0, 0]

/-- How the sample chip is erased: one unit of the coarsest blocks, one of the middle ones, and two
of the finest. -/
def Plan.sample : Plan :=
  ⟨Image.sample, Image.blank 22 255,
    [⟨2, 8, 1, 1, 0⟩, ⟨2, 18, 2, 1, 0⟩, ⟨4, 12, 1, 2, 0⟩, ⟨8, 0, 1, 0, 0⟩]⟩

/-- **Every plan is well formed**, for every chip, pair of images, extent and filter. -/
theorem prepare_wellFormed {plan : Plan}
    (h : (Plan.prepare chip old new extent filter s).1 = .ok plan) :
    plan.WellFormed chip.totalSize := by
  have hsel : Ends (Plan.prepare chip old new extent filter) s _ :=
    prepare_selected (vouches_trivial filter chip) trivial
  obtain ⟨hold, hnew, es, rfl, -, hes, -⟩ := hsel.2 plan h
  exact wellFormed_ofErasers hes hold hnew

theorem prepare_wellFormed_sample :
    (Plan.prepare Chip.sample Image.sample (Image.blank 22 255) 22 EraserFilter.all
      (⟨(), #[], #[]⟩ : Session Unit)).1 = .ok Plan.sample ∧ Plan.sample.WellFormed 22 :=
  ⟨rfl, @prepare_wellFormed Unit Chip.sample Image.sample (Image.blank 22 255) 22 EraserFilter.all
    ⟨(), #[], #[]⟩ Plan.sample rfl⟩

end Reflash
