import Reflash.Proofs.Plan.Structure
import Reflash.Proofs.Span

/-!
# The blocks of a plan

Which blocks a plan has can be said without maps. A block of level `l` is in the
plan if it is needed on its own level, that is touched on the finest level and
folded on a coarser one, and lies in no folded block of a coarser level
(`Comparison.Planned`).

* `mem_units_ofErasers`: the blocks of one block size are the planned ones of its level.
* `exists_mem_blocks`: a byte that changes on whole blocks of the finest level is in some block.
* `differs_of_mem_blocks`: in every block some byte changes.
-/

namespace Reflash

variable {chip : Chip} {es : List Eraser} {old new : Image}

namespace Comparison

/-- Block number `j` of level `l` is processed: it is needed on its level, and no folded block of
a coarser level contains it. -/
structure Planned (c : Comparison) (l j : ℕ) : Prop where
  needed : j < c.count l ∧ (if l = 0 then c.touched (c.span 0 j) else c.folded l j) = true
  uncovered : ∀ l' j', l < l' → l' < c.sizes.length → c.folded l' j' = true →
    ¬(c.span l j).Within (c.span l' j')

variable {c : Comparison} {l l' j j' : ℕ}

theorem folded_succ_iff : c.folded (l + 1) j = true ↔ j < c.count (l + 1) ∧
    70 * (c.size (l + 1) / c.size l) / 100 <
      (List.range (c.size (l + 1) / c.size l)).countP fun i =>
        c.folded l (j * (c.size (l + 1) / c.size l) + i) := by
  rw [folded, Bool.and_eq_true, decide_eq_true_eq, decide_eq_true_eq]

theorem lt_count_of_folded (h : c.folded (l + 1) j = true) : j < c.count (l + 1) :=
  (folded_succ_iff.1 h).1

theorem mem_span_iff {a : ℕ} (hpos : 0 < c.size l) : a ∈ c.span l j ↔ a / c.size l = j := by
  rw [Nat.div_eq_iff hpos, Span.mem_def, span]
  dsimp only
  omega

/-- A coarser block contains a finer one exactly if it contains the first byte of it. -/
theorem within_iff (hpos : 0 < c.size l) (hpos' : 0 < c.size l') (hdvd : c.size l ∣ c.size l') :
    (c.span l j).Within (c.span l' j') ↔ j * c.size l / c.size l' = j' := by
  have hfirst : j * c.size l / c.size l = j := Nat.mul_div_cancel _ hpos
  constructor
  · intro h
    exact (mem_span_iff hpos').1 (h _ ((mem_span_iff hpos).2 hfirst))
  · intro h a ha
    have hdiv : a / c.size l = j * c.size l / c.size l :=
      ((mem_span_iff hpos).1 ha).trans hfirst.symm
    rw [mem_span_iff hpos', ← h]
    exact ChangeMap.div_congr hdvd hdiv

/-- A block of the next level has the bytes of the finer blocks in it. -/
theorem mem_span_succ_iff {a : ℕ} (hpos : 0 < c.size l) (hpos' : 0 < c.size (l + 1))
    (hdvd : c.size l ∣ c.size (l + 1)) :
    a ∈ c.span (l + 1) j ↔ ∃ i < c.size (l + 1) / c.size l,
      a ∈ c.span l (j * (c.size (l + 1) / c.size l) + i) := by
  have hm : 0 < c.size (l + 1) / c.size l := Nat.div_pos (Nat.le_of_dvd hpos' hdvd) hpos
  have hdiv : a / c.size (l + 1) = a / c.size l / (c.size (l + 1) / c.size l) := by
    rw [Nat.div_div_eq_div_mul, Nat.mul_div_cancel' hdvd]
  simp only [mem_span_iff hpos, mem_span_iff hpos', hdiv]
  generalize c.size (l + 1) / c.size l = m at *
  constructor
  · rintro rfl
    exact ⟨a / c.size l % m, Nat.mod_lt _ hm, (Nat.div_add_mod' (a / c.size l) m).symm⟩
  · rintro ⟨i, hi, ha⟩
    rw [ha, Nat.mul_comm, Nat.mul_add_div hm, Nat.div_eq_of_lt hi, Nat.add_zero]

/-- Some finer block in a folded one is folded. -/
theorem exists_folded_child (h : c.folded (l + 1) j = true) :
    ∃ i < c.size (l + 1) / c.size l, c.folded l (j * (c.size (l + 1) / c.size l) + i) = true := by
  -- a count above the limit is positive
  obtain ⟨i, hi, hchild⟩ := List.countP_pos_iff.1 (Nat.zero_lt_of_lt (folded_succ_iff.1 h).2)
  exact ⟨i, List.mem_range.1 hi, hchild⟩

end Comparison

namespace ChangeMap

open Comparison

variable {c : Comparison} {m : ChangeMap} {ms : List ChangeMap} {l j a : ℕ}

theorem isSet_clearedBy : (m.clearedBy ms).marks[j]?.any Mark.isSet =
    (m.marks[j]?.any Mark.isSet && !erasedAt ms (j * m.blockSize)) := by
  simp only [clearedBy, Array.getElem?_mapIdx]
  cases m.marks[j]? <;> cases erasedAt ms (j * m.blockSize) <;> simp [Mark.none, Mark.isSet]

theorem Reflects.marksAt (h : m.Reflects c 0) :
    m.marksAt a = (decide (a / c.size 0 < c.count 0) && c.touched (c.span 0 (a / c.size 0))) := by
  rw [ChangeMap.marksAt, markAt, h.isSet, h.blockSize, if_pos rfl]

theorem Reflects.erasesAt (h : m.Reflects c l) :
    m.erasesAt a = (decide (a / c.size l < c.count l) && c.folded l (a / c.size l)) := by
  rw [ChangeMap.erasesAt, markAt, h.erase, h.blockSize]

/-- The maps of coarser levels erase a block exactly if a folded block of such a level contains
it. -/
theorem erasedAt_drop (hes : Nested es) (hold : old.size = chip.totalSize)
    (hnew : new.size = chip.totalSize) (hl : l < es.length) :
    erasedAt ((promoted (ofErasers chip es old new) es).drop (l + 1))
        (j * (ofErasers chip es old new).size l) = true ↔
      ∃ l' j', l < l' ∧ l' < es.length ∧ (ofErasers chip es old new).folded l' j' = true ∧
        ((ofErasers chip es old new).span l j).Within ((ofErasers chip es old new).span l' j') := by
  have hreg := regular_of_nested chip old new hes
  have hreflects := promoted_reflects hes hold hnew
  set c := ofErasers chip es old new with hc
  have hlen : c.sizes.length = es.length := List.length_map _
  have hcontains : ∀ l' j', l < l' → l' < es.length →
      ((c.span l j).Within (c.span l' j') ↔ j * c.size l / c.size l' = j') := fun l' j' hlt hl' =>
    within_iff (hreg.pos l (by omega)) (hreg.pos l' (by omega)) (hreg.dvd l l' hlt (by omega))
  rw [erasedAt_iff]
  constructor
  · rintro ⟨m, hm, he⟩
    obtain ⟨k, hk⟩ := List.mem_iff_getElem?.1 hm
    rw [List.getElem?_drop] at hk
    have hlt : l + 1 + k < es.length := by
      rw [← length_promoted c es]
      exact (List.getElem?_eq_some_iff.1 hk).1
    rw [(hreflects _ m hk).erasesAt, Bool.and_eq_true] at he
    exact ⟨l + 1 + k, _, by omega, hlt, he.2, (hcontains _ _ (by omega) hlt).2 rfl⟩
  · rintro ⟨l', j', hlt, hl', hfold, hin⟩
    obtain ⟨k, rfl⟩ := Nat.exists_eq_add_of_lt hlt
    obtain ⟨m, hget⟩ : ∃ m, (promoted c es)[l + k + 1]? = some m :=
      ⟨_, List.getElem?_eq_getElem (by rwa [length_promoted])⟩
    refine ⟨m, List.mem_iff_getElem?.2 ⟨k, ?_⟩, ?_⟩
    · rw [List.getElem?_drop, show l + 1 + k = l + k + 1 by omega, hget]
    · rw [(hreflects _ _ hget).erasesAt, (hcontains _ _ hlt hl').1 hin, hfold, Bool.and_true,
        decide_eq_true_eq]
      exact lt_count_of_folded hfold

/-- **The marks of a settled map** are those of the planned blocks of its level. -/
theorem isSet_settle (hes : Nested es) (hold : old.size = chip.totalSize)
    (hnew : new.size = chip.totalSize) {m : ChangeMap}
    (hm : (settle (promoted (ofErasers chip es old new) es))[l]? = some m) :
    m.blockSize = (ofErasers chip es old new).size l ∧
      (m.marks[j]?.any Mark.isSet = true ↔ (ofErasers chip es old new).Planned l j) := by
  rw [getElem?_settle (stacked_promoted _ hes), Option.map_eq_some_iff] at hm
  obtain ⟨m₀, hm₀, rfl⟩ := hm
  have href := promoted_reflects hes hold hnew l m₀ hm₀
  have hl : l < es.length := by
    rw [← length_promoted (ofErasers chip es old new) es]
    exact (List.getElem?_eq_some_iff.1 hm₀).1
  refine ⟨href.blockSize, ?_⟩
  rw [isSet_clearedBy, Bool.and_eq_true, Bool.not_eq_true', ← Bool.not_eq_true, href.blockSize,
    erasedAt_drop hes hold hnew hl, href.isSet, Bool.and_eq_true, decide_eq_true_eq]
  constructor
  · rintro ⟨hneeded, hnot⟩
    refine ⟨hneeded, fun l' j' hlt hl' hfold hin => hnot ⟨l', j', hlt, ?_, hfold, hin⟩⟩
    exact hl'.trans_eq (List.length_map _)
  · rintro ⟨hneeded, hun⟩
    refine ⟨hneeded, ?_⟩
    rintro ⟨l', j', hlt, hl', hfold, hin⟩
    exact hun l' j' hlt (hl'.trans_eq (List.length_map _).symm) hfold hin

end ChangeMap

open ChangeMap Comparison

theorem mem_units_ofErasers_iff {u : ProcessingUnit} :
    u ∈ (Plan.ofErasers chip old new es).units ↔
      ∃ (l : ℕ) (m : ChangeMap),
        (settle (promoted (ofErasers chip es old new) es))[l]? = some m ∧ u ∈ m.mapUnits := by
  rw [units_ofErasers, List.mem_flatMap]
  constructor
  · rintro ⟨m, hm, hu⟩
    obtain ⟨l, hl⟩ := List.mem_iff_getElem?.1 hm
    exact ⟨l, m, hl, hu⟩
  · rintro ⟨l, m, hl, hu⟩
    exact ⟨m, List.mem_of_getElem? hl, hu⟩

/-- The eraser of a settled map. -/
theorem eraser_settle {l : ℕ} {m : ChangeMap}
    (hm : (settle (promoted (ofErasers chip es old new) es))[l]? = some m) :
    es[l]? = some m.eraser := by
  have hmap := map_eraser_settle (promoted (ofErasers chip es old new) es)
  rw [map_eraser_promoted] at hmap
  rw [← hmap, List.getElem?_map, hm]
  rfl

/-- **The blocks of one block size** are the planned blocks of its level. -/
theorem mem_units_ofErasers (hes : Nested es) (hold : old.size = chip.totalSize)
    (hnew : new.size = chip.totalSize) {l : ℕ} {e : Eraser} (he : es[l]? = some e) {b : Block} :
    (∃ u ∈ (Plan.ofErasers chip old new es).units, u.blockSize = e.blockSize ∧ b ∈ u.blocks) ↔
      ∃ j, (ofErasers chip es old new).Planned l j ∧
        b = ⟨j * e.blockSize, e.blockSize, e.function⟩ := by
  have hblock : ∀ u m, u ∈ mapUnits m → u.blockSize = m.eraser.blockSize := by
    intro u m hu
    obtain ⟨_, _, rfl, -, -⟩ := mem_mapUnits hu
    rfl
  constructor
  · rintro ⟨u, hu, hsize, hb⟩
    obtain ⟨l', m, hm, hu⟩ := mem_units_ofErasers_iff.1 hu
    have he' := eraser_settle hm
    -- block sizes are distinct, so the unit comes from the map of level `l`
    have hl : l' = l := by
      obtain ⟨hlt, hget⟩ := List.getElem?_eq_some_iff.1 he
      obtain ⟨hlt', hget'⟩ := List.getElem?_eq_some_iff.1 he'
      rw [hblock u m hu, ← hget, ← hget'] at hsize
      rcases Nat.lt_trichotomy l' l with h | h | h
      · have := (List.pairwise_iff_getElem.1 hes l' l hlt' hlt h).1
        omega
      · exact h
      · have := (List.pairwise_iff_getElem.1 hes l l' hlt hlt' h).1
        omega
    subst hl
    rw [he] at he'
    cases he'
    obtain ⟨j, hj, rfl⟩ := mem_mapUnits_blocks.1 ⟨u, hu, hb⟩
    exact ⟨j, (isSet_settle hes hold hnew hm).2.1 hj, rfl⟩
  · rintro ⟨j, hj, rfl⟩
    have hlt : l < (settle (promoted (ofErasers chip es old new) es)).length := by
      rw [← List.length_map eraser, map_eraser_settle, map_eraser_promoted]
      exact (List.getElem?_eq_some_iff.1 he).1
    have hm := List.getElem?_eq_getElem hlt
    have he' := eraser_settle hm
    rw [he] at he'
    cases he'
    obtain ⟨u, hu, hb⟩ := mem_mapUnits_blocks.2 ⟨j, (isSet_settle hes hold hnew hm).2.2 hj, rfl⟩
    exact ⟨u, mem_units_ofErasers_iff.2 ⟨l, _, hm, hu⟩, hblock u _ hu, hb⟩

theorem mem_blocks_iff {p : Plan} {b : Block} : b ∈ p.blocks ↔ ∃ u ∈ p.units, b ∈ u.blocks :=
  List.mem_flatMap

/-- Every block of a plan is a planned block of some level. -/
theorem planned_of_mem_blocks (hes : Nested es) (hold : old.size = chip.totalSize)
    (hnew : new.size = chip.totalSize) {b : Block}
    (hb : b ∈ (Plan.ofErasers chip old new es).blocks) :
    ∃ l e j, es[l]? = some e ∧ (ofErasers chip es old new).Planned l j ∧
      b = ⟨j * e.blockSize, e.blockSize, e.function⟩ := by
  obtain ⟨u, hu, hb⟩ := mem_blocks_iff.1 hb
  obtain ⟨l, m, hm, hu'⟩ := mem_units_ofErasers_iff.1 hu
  have hsize : u.blockSize = m.eraser.blockSize := by
    obtain ⟨_, _, rfl, -, -⟩ := mem_mapUnits hu'
    rfl
  obtain ⟨j, hj⟩ := (mem_units_ofErasers hes hold hnew (eraser_settle hm)).1 ⟨u, hu, hsize, hb⟩
  exact ⟨l, m.eraser, j, eraser_settle hm, hj⟩

/-! ## Changes and blocks -/

/-- In a folded block some byte changes that is not erased, because one does in one of the blocks
that it is made of. -/
theorem dirty_of_folded {c : Comparison} (hc : c.Regular) {l j : ℕ} (hl : l < c.sizes.length)
    (h : c.folded l j = true) : c.dirty (c.span l j) = true := by
  induction l generalizing j with
  | zero => exact h
  | succ l ih =>
    obtain ⟨i, hi, hchild⟩ := exists_folded_child h
    obtain ⟨a, ha, hd⟩ := Span.any_iff.1 (ih (by omega) hchild)
    have hdvd := hc.dvd l (l + 1) (Nat.lt_succ_self l) hl
    exact Span.any_iff.2
      ⟨a, (mem_span_succ_iff (hc.pos l (by omega)) (hc.pos _ hl) hdvd).2 ⟨i, hi, ha⟩, hd⟩

theorem exists_differs_of_folded {c : Comparison} (hc : c.Regular) {l j : ℕ}
    (hl : l < c.sizes.length) (h : c.folded l j = true) :
    ∃ a ∈ c.span l j, Image.differsAt c.old c.new a = true := by
  obtain ⟨a, ha, hd⟩ := Span.any_iff.1 (dirty_of_folded hc hl h)
  rw [Bool.and_eq_true] at hd
  exact ⟨a, ha, hd.1⟩

/-- **In every block of a plan some byte changes.** -/
theorem differs_of_mem_blocks (hes : Nested es) (hold : old.size = chip.totalSize)
    (hnew : new.size = chip.totalSize) {b : Block}
    (hb : b ∈ (Plan.ofErasers chip old new es).blocks) :
    ∃ a ∈ b.span, old.byte a ≠ new.byte a := by
  obtain ⟨l, e, j, he, hj, rfl⟩ := planned_of_mem_blocks hes hold hnew hb
  have hl : l < (ofErasers chip es old new).sizes.length := by
    rw [ofErasers, List.length_map]
    exact (List.getElem?_eq_some_iff.1 he).1
  have hspan : (ofErasers chip es old new).span l j = ⟨j * e.blockSize, e.blockSize⟩ := by
    rw [Comparison.span, size_ofErasers he]
  have hneeded := hj.needed.2
  rw [Block.span, ← hspan]
  split at hneeded
  · rename_i h0
    subst h0
    obtain ⟨a, ha, hd⟩ := Span.any_iff.1 hneeded
    exact ⟨a, ha, Image.differsAt_iff.1 hd⟩
  · obtain ⟨a, ha, hd⟩ := exists_differs_of_folded (regular_of_nested _ _ _ hes) hl hneeded
    exact ⟨a, ha, Image.differsAt_iff.1 hd⟩

/-! ## The blocks of a unit -/

theorem mem_unit_blocks {u : ProcessingUnit} {b : Block} :
    b ∈ u.blocks ↔
      ∃ i < u.blockCount, b = ⟨u.offset + i * u.blockSize, u.blockSize, u.function⟩ := by
  simp only [ProcessingUnit.blocks, List.mem_map, List.mem_range, eq_comm]

/-- A unit is made up of its blocks. -/
theorem mem_unit_span {u : ProcessingUnit} {a : ℕ} :
    a ∈ u.span ↔ ∃ b ∈ u.blocks, a ∈ b.span := by
  have hsize : u.size = u.blockSize * u.blockCount := rfl
  constructor
  · rintro ⟨h1, h2⟩
    simp only [ProcessingUnit.span, hsize] at h1 h2
    have hpos : 0 < u.blockSize := Nat.pos_of_ne_zero fun h0 => by
      rw [h0, Nat.zero_mul] at h2
      omega
    refine ⟨_, mem_unit_blocks.2 ⟨(a - u.offset) / u.blockSize, ?_, rfl⟩, ?_⟩
    · rw [Nat.div_lt_iff_lt_mul hpos, Nat.mul_comm]
      omega
    · have h3 := Nat.div_add_mod (a - u.offset) u.blockSize
      have h4 := Nat.mod_lt (a - u.offset) hpos
      rw [Nat.mul_comm] at h3
      rw [Block.span, Span.mem_def]
      dsimp only
      omega
  · rintro ⟨b, hb, h1, h2⟩
    obtain ⟨i, hi, rfl⟩ := mem_unit_blocks.1 hb
    simp only [Block.span] at h1 h2
    have h3 := Nat.mul_le_mul_right u.blockSize (Nat.succ_le_of_lt hi)
    rw [Nat.succ_mul, Nat.mul_comm u.blockCount] at h3
    rw [ProcessingUnit.span, Span.mem_def, hsize]
    dsimp only
    omega

/-- The units of a plan have the addresses of its blocks. -/
theorem exists_mem_units_iff {p : Plan} {a : ℕ} :
    (∃ u ∈ p.units, a ∈ u.span) ↔ ∃ b ∈ p.blocks, a ∈ b.span := by
  constructor
  · rintro ⟨u, hu, ha⟩
    obtain ⟨b, hb, hab⟩ := mem_unit_span.1 ha
    exact ⟨b, mem_blocks_iff.2 ⟨u, hu, hb⟩, hab⟩
  · rintro ⟨b, hb, ha⟩
    obtain ⟨u, hu, hbu⟩ := mem_blocks_iff.1 hb
    exact ⟨u, hu, mem_unit_span.2 ⟨b, hbu, ha⟩⟩

theorem unit_blocks_disjoint (u : ProcessingUnit) :
    u.blocks.Pairwise fun b c => ∀ a ∈ b.span, a ∉ c.span := by
  refine List.pairwise_map.2 (List.pairwise_lt_range.imp fun {i k} hik a hb hc => ?_)
  have h1 := hb.2
  have h2 := hc.1
  have h3 := Nat.mul_le_mul_right u.blockSize (Nat.succ_le_of_lt hik)
  simp only [Block.span, Nat.succ_mul] at h1 h2 h3
  omega

/-- **The blocks of a well-formed plan** have no address in common. -/
theorem Plan.WellFormed.blocks_disjoint {p : Plan} {n : ℕ} (h : p.WellFormed n) :
    p.blocks.Pairwise fun b c => ∀ a ∈ b.span, a ∉ c.span := by
  refine List.pairwise_flatMap.2 ⟨fun u _ => unit_blocks_disjoint u, ?_⟩
  refine h.disjoint.imp fun {u v} huv b hb c hc a ha ha' => ?_
  exact huv a (mem_unit_span.2 ⟨b, hb, ha⟩) (mem_unit_span.2 ⟨c, hc, ha'⟩)

theorem Plan.WellFormed.blocks_inside {p : Plan} {n : ℕ} (h : p.WellFormed n) {b : Block}
    (hb : b ∈ p.blocks) : b.start + b.size ≤ n := by
  obtain ⟨u, hu, hb⟩ := mem_blocks_iff.1 hb
  have hstop := h.inside u hu
  obtain ⟨i, hi, rfl⟩ := mem_unit_blocks.1 hb
  have := Nat.mul_le_mul_right u.blockSize (Nat.succ_le_of_lt hi)
  rw [Nat.succ_mul, Nat.mul_comm u.blockCount] at this
  simp only [ProcessingUnit.stop, ProcessingUnit.size] at hstop
  dsimp only
  omega

theorem Plan.WellFormed.blocks_ne_nil {p : Plan} {n : ℕ} (h : p.WellFormed n)
    (hne : p.units ≠ []) : p.blocks ≠ [] := by
  obtain ⟨u, hu⟩ := List.exists_mem_of_ne_nil _ hne
  exact List.ne_nil_of_mem
    (mem_blocks_iff.2 ⟨u, hu, mem_unit_blocks.2 ⟨0, h.nonempty u hu, rfl⟩⟩)

/-- **A byte that changes is in some block**, if it is in a whole block of the finest level. -/
theorem exists_mem_blocks (hes : Nested es) (hold : old.size = chip.totalSize)
    (hnew : new.size = chip.totalSize) {e : Eraser} (he : es[0]? = some e) {a : ℕ}
    (ha : a / e.blockSize < chip.totalSize / e.blockSize) (hd : old.byte a ≠ new.byte a) :
    ∃ b ∈ (Plan.ofErasers chip old new es).blocks, a ∈ b.span := by
  set c := ofErasers chip es old new with hc
  have hst := stacked_promoted c hes
  have hsolid := promoted_solid hes hold hnew
  have hreflects := promoted_reflects hes hold hnew
  rw [← hc] at hsolid hreflects
  have hunits := units_ofErasers chip old new es
  have hlen := length_promoted c es
  have hpos : 0 < es.length := (List.getElem?_eq_some_iff.1 he).1
  have hsize : c.size 0 = e.blockSize := size_ofErasers he
  rw [← hc] at hunits
  cases hm : promoted c es with
  | nil => rw [hm, List.length_nil] at hlen; omega
  | cons m ms =>
    rw [hm] at hst hsolid hunits hreflects
    have hmark : m.marksAt a = true := by
      rw [(hreflects 0 m rfl).marksAt, Bool.and_eq_true, decide_eq_true_eq, hsize]
      refine ⟨by rwa [Comparison.count, hsize], Span.any_iff.2 ⟨a, ?_, Image.differsAt_iff.2 hd⟩⟩
      have h3 := Nat.div_add_mod a e.blockSize
      have h4 := Nat.mod_lt a e.blockSize_pos
      rw [Nat.mul_comm] at h3
      rw [Comparison.span, hsize, Span.mem_def]
      dsimp only
      omega
    obtain ⟨k, hk, hka⟩ := (exists_marksAt_settle hst hsolid).2 (.inl hmark)
    obtain ⟨u, hu, hua⟩ := mem_mapUnits_span.2 hka
    obtain ⟨b, hb, hba⟩ := mem_unit_span.1 hua
    refine ⟨b, mem_blocks_iff.2 ⟨u, ?_, hb⟩, hba⟩
    rw [hunits]
    exact List.mem_flatMap.2 ⟨k, hk, hu⟩

end Reflash
