import Mathlib
import Reflash.Plan.Basic

/-!
# Runs of marked blocks

The units of a change map are the maximal runs of its marked blocks.

* `mem_runsFrom`: a block is in a run exactly if it is marked.
* `mapUnits_pairwise`: between two units there is a block that is not marked.
* `mem_mapUnits_blocks`: the blocks of the units are the marked blocks.
* `mapUnits_marked`: if all blocks are marked, they are one unit.
-/

namespace Reflash.ChangeMap

theorem blockSize_pos (m : ChangeMap) : 0 < m.blockSize := m.eraser.blockSize_pos

/-- Block number `j` of the map, as plans have it. -/
def block (m : ChangeMap) (j : ℕ) : Block := ⟨j * m.blockSize, m.blockSize, m.eraser.function⟩

/-- The mark of the block that address `a` is in. -/
def markAt (m : ChangeMap) (a : ℕ) : Option Mark := m.marks[a / m.blockSize]?

/-- The block that address `a` is in needs something. -/
def marksAt (m : ChangeMap) (a : ℕ) : Bool := (m.markAt a).any Mark.isSet

/-- The block that address `a` is in needs an erase. -/
def erasesAt (m : ChangeMap) (a : ℕ) : Bool := (m.markAt a).any Mark.erase

variable {ms : List Mark} {i run : ℕ}

theorem runsFrom_bounds (hrun : run ≤ i) {r : ℕ × ℕ} (hr : r ∈ runsFrom ms i run) :
    0 < r.2 ∧ i - run ≤ r.1 ∧ r.1 + r.2 ≤ i + ms.length := by
  fun_induction runsFrom ms i run with
  | case1 i => cases hr
  | case2 i run h =>
    rw [List.mem_singleton.1 hr]
    simp only [List.length_nil]
    omega
  | case3 m ms i run h ih =>
    have := ih (by omega) hr
    simp only [List.length_cons]
    omega
  | case4 m ms i h ih =>
    have := ih (by omega) hr
    simp only [List.length_cons]
    omega
  | case5 m ms i run h hne ih =>
    simp only [List.length_cons]
    rcases List.mem_cons.1 hr with rfl | hr
    · simp only; omega
    · have := ih (by omega) hr
      omega

/-- Behind every run there is a block that is not marked. -/
theorem runsFrom_pairwise (hrun : run ≤ i) :
    (runsFrom ms i run).Pairwise fun r q => r.1 + r.2 < q.1 := by
  fun_induction runsFrom ms i run with
  | case1 i => exact List.Pairwise.nil
  | case2 i run h => exact List.pairwise_singleton _ _
  | case3 m ms i run h ih => exact ih (by omega)
  | case4 m ms i h ih => exact ih (by omega)
  | case5 m ms i run h hne ih =>
    refine List.pairwise_cons.2 ⟨fun q hq => ?_, ih (by omega)⟩
    have := runsFrom_bounds (Nat.zero_le _) hq
    simp only
    omega

theorem runsFrom_unmarked (h : ∀ m ∈ ms, m.isSet = false) : runsFrom ms i 0 = [] := by
  induction ms generalizing i with
  | nil => rfl
  | cons m ms ih =>
    obtain ⟨hm, hms⟩ := List.forall_mem_cons.1 h
    rw [runsFrom, if_neg (Bool.eq_false_iff.1 hm), if_pos rfl]
    exact ih hms

/-- Marked blocks only make the pending run longer. -/
theorem runsFrom_marked (h : ∀ m ∈ ms, m.isSet = true) (hne : 0 < run + ms.length) :
    runsFrom ms i run = [(i - run, run + ms.length)] := by
  induction ms generalizing i run with
  | nil => exact if_neg hne.ne'
  | cons m ms ih =>
    obtain ⟨hm, hms⟩ := List.forall_mem_cons.1 h
    rw [runsFrom, if_pos hm, ih hms (by omega), Nat.add_sub_add_right, List.length_cons,
      Nat.add_right_comm, Nat.add_assoc]

/-- Marks that start with block number `i`, without the first. -/
theorem any_getElem?_cons {m : Mark} {p : Mark → Bool} {j : ℕ} :
    (i ≤ j ∧ (m :: ms)[j - i]?.any p = true) ↔
      (i = j ∧ p m = true) ∨ (i + 1 ≤ j ∧ ms[j - (i + 1)]?.any p = true) := by
  rcases Nat.lt_trichotomy i j with hlt | rfl | hgt
  · obtain ⟨k, rfl⟩ := Nat.exists_eq_add_of_lt hlt
    rw [show i + k + 1 - i = k + 1 by omega, show i + k + 1 - (i + 1) = k by omega,
      List.getElem?_cons_succ]
    grind
  · simp
  · grind

/-- **A block is in a run exactly if it is marked** or one of the pending blocks. -/
theorem mem_runsFrom (hrun : run ≤ i) {j : ℕ} :
    (∃ r ∈ runsFrom ms i run, r.1 ≤ j ∧ j < r.1 + r.2) ↔
      (i - run ≤ j ∧ j < i) ∨ (i ≤ j ∧ ms[j - i]?.any Mark.isSet = true) := by
  -- the pending run ends at `i`, so its blocks are the `run` blocks before `i`
  fun_induction runsFrom ms i run with
  | case1 i => simp
  | case2 i run h => simp; omega
  | case3 m ms i run h ih =>
    rw [ih (by omega), any_getElem?_cons]
    simp only [h, and_true]
    grind
  | case4 m ms i h ih =>
    rw [ih (by omega), any_getElem?_cons]
    simp only [h, and_false, Bool.false_eq_true, false_or]
    grind
  | case5 m ms i run h hne ih =>
    simp only [List.mem_cons, exists_eq_or_imp]
    rw [ih (Nat.zero_le _), any_getElem?_cons]
    simp only [h, and_false, Bool.false_eq_true, false_or]
    grind

/-! ## The units of one map -/

variable {m : ChangeMap}

theorem mem_mapUnits {u : ProcessingUnit} (hu : u ∈ m.mapUnits) :
    ∃ first n, u = m.unit first n ∧ 0 < n ∧ first + n ≤ m.marks.size := by
  obtain ⟨⟨first, n⟩, hr, rfl⟩ := List.mem_map.1 hu
  have := runsFrom_bounds (Nat.zero_le _) hr
  exact ⟨first, n, rfl, this.1, by simpa using this.2.2⟩

theorem unit_stop (first n : ℕ) : (m.unit first n).stop = (first + n) * m.blockSize := by
  simp only [unit, ProcessingUnit.stop, ProcessingUnit.size]
  ring

theorem mapUnits_pairwise (m : ChangeMap) :
    m.mapUnits.Pairwise fun u v => u.blockSize = v.blockSize ∧ u.stop < v.offset := by
  refine List.pairwise_map.2 ((runsFrom_pairwise (Nat.zero_le _)).imp fun {r q} h => ⟨rfl, ?_⟩)
  rw [unit_stop]
  exact Nat.mul_lt_mul_of_pos_right h m.blockSize_pos

/-- Without marked blocks there are no units. -/
theorem mapUnits_unmarked (h : ∀ mark ∈ m.marks, mark.isSet = false) : m.mapUnits = [] := by
  unfold mapUnits
  rw [runsFrom_unmarked fun mark hmark => h mark (Array.mem_toList_iff.1 hmark), List.map_nil]

/-- If all blocks are marked, they are one unit. -/
theorem mapUnits_marked (hne : 0 < m.marks.size) (h : ∀ mark ∈ m.marks, mark.isSet = true) :
    m.mapUnits = [m.unit 0 m.marks.size] := by
  unfold mapUnits
  rw [runsFrom_marked (fun mark hmark => h mark (Array.mem_toList_iff.1 hmark))
    (by rw [Array.length_toList]; omega), List.map_singleton, Array.length_toList, Nat.zero_add]

/-- An address is in a unit exactly if its block is marked. -/
theorem mem_mapUnits_span {a : ℕ} : (∃ u ∈ m.mapUnits, a ∈ u.span) ↔ m.marksAt a = true := by
  have hpos := m.blockSize_pos
  have hrun := @mem_runsFrom m.marks.toList 0 0 (Nat.zero_le 0) (a / m.blockSize)
  simp only [Nat.sub_zero, Nat.not_lt_zero, and_false, false_or, Nat.zero_le,
    true_and, Array.getElem?_toList] at hrun
  rw [marksAt, markAt, ← hrun, mapUnits]
  simp only [List.mem_map, Prod.exists]
  constructor
  · rintro ⟨u, ⟨first, n, hr, rfl⟩, h1, h2⟩
    refine ⟨first, n, hr, (Nat.le_div_iff_mul_le hpos).2 h1, (Nat.div_lt_iff_lt_mul hpos).2 ?_⟩
    exact lt_of_lt_of_eq h2 (unit_stop first n)
  · rintro ⟨first, n, hr, h1, h2⟩
    refine ⟨_, ⟨first, n, hr, rfl⟩, (Nat.le_div_iff_mul_le hpos).1 h1, ?_⟩
    exact lt_of_lt_of_eq ((Nat.div_lt_iff_lt_mul hpos).1 h2) (unit_stop first n).symm

/-- **The blocks of the units are the marked blocks.** -/
theorem mem_mapUnits_blocks {b : Block} :
    (∃ u ∈ m.mapUnits, b ∈ u.blocks) ↔ ∃ j, m.marks[j]?.any Mark.isSet = true ∧ b = m.block j := by
  have hrun := fun j => @mem_runsFrom m.marks.toList 0 0 (Nat.zero_le 0) j
  simp only [Nat.sub_zero, Nat.not_lt_zero, and_false, false_or, Nat.zero_le,
    true_and, Array.getElem?_toList] at hrun
  simp only [mapUnits, List.mem_map, Prod.exists, ProcessingUnit.blocks, List.mem_range]
  constructor
  · rintro ⟨u, ⟨first, n, hr, rfl⟩, k, hk, rfl⟩
    refine ⟨first + k, (hrun _).1 ⟨(first, n), hr, by simp, Nat.add_lt_add_left hk first⟩, ?_⟩
    simp [block, unit, Nat.add_mul]
  · rintro ⟨j, hj, rfl⟩
    obtain ⟨⟨first, n⟩, hr, h1, h2⟩ := (hrun j).2 hj
    simp only at h1 h2
    refine ⟨_, ⟨first, n, hr, rfl⟩, j - first, by simp only [unit]; omega, ?_⟩
    obtain ⟨k, rfl⟩ := Nat.exists_eq_add_of_le h1
    simp [block, unit, Nat.add_mul]

end Reflash.ChangeMap
