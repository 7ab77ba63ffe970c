import Reflash.Proofs.Plan.Erasers
import Reflash.Proofs.Plan.Runs

/-!
# Folding, declaratively

A `Comparison` holds what decides which blocks a plan has. A block of the finest
level is `dirty` if some byte in it changes and is not erased. A block of a coarser
level is `folded` if more than 70 percent of the blocks of the next finer level in it
are (`Comparison.folded`, a recursion over the levels).

* `promoted_induction`: what the finest map has and each map passes on, all maps have.
* `promoted_reflects`: after promotion, the map of every level marks for an erase
  exactly the folded blocks of that level.
-/

namespace Reflash

/-- What decides which blocks have to be processed. -/
structure Comparison where
  old : Image
  new : Image
  /-- The value of an erased byte. -/
  erased : UInt8
  chipSize : ℕ
  /-- The block sizes of the levels, finest first. -/
  sizes : List ℕ

namespace Comparison

/-- The comparison of two images on a chip with these erasers. -/
def ofErasers (chip : Chip) (es : List Eraser) (old new : Image) : Comparison :=
  ⟨old, new, chip.erasedValue, chip.totalSize, es.map Eraser.blockSize⟩

/-- The block size of level `l`. -/
def size (c : Comparison) (l : ℕ) : ℕ := c.sizes.getD l 0

/-- Block number `j` of level `l`. -/
def span (c : Comparison) (l j : ℕ) : Span := ⟨j * c.size l, c.size l⟩

/-- How many whole blocks of level `l` the chip has. -/
def count (c : Comparison) (l : ℕ) : ℕ := c.chipSize / c.size l

/-- Some byte of the span changes. -/
def touched (c : Comparison) (s : Span) : Bool := s.any (Image.differsAt c.old c.new)

/-- Some byte of the span changes that is not erased before. -/
def dirty (c : Comparison) (s : Span) : Bool :=
  s.any fun a => Image.differsAt c.old c.new a && c.old.byte a != c.erased

/-- Block number `j` of level `l` is erased as a whole. On the finest level these are the blocks
that need an erase. On a coarser one, more than 70 percent of the next finer blocks in it are. -/
def folded (c : Comparison) : ℕ → ℕ → Bool
  | 0, j => c.dirty (c.span 0 j)
  | l + 1, j =>
    let m := c.size (l + 1) / c.size l
    j < c.count (l + 1) && 70 * m / 100 < (List.range m).countP fun i => c.folded l (j * m + i)

/-- The block sizes are positive, and each divides the next. -/
structure Regular (c : Comparison) : Prop where
  pos : ∀ l < c.sizes.length, 0 < c.size l
  lt : ∀ l l', l < l' → l' < c.sizes.length → c.size l < c.size l'
  dvd : ∀ l l', l < l' → l' < c.sizes.length → c.size l ∣ c.size l'

variable {c : Comparison} {chip : Chip} {es : List Eraser} {old new : Image} {e : Eraser} {l : ℕ}

theorem size_eq {n : ℕ} (h : c.sizes[l]? = some n) : c.size l = n := by simp [size, h]

theorem size_ofErasers (h : es[l]? = some e) :
    (ofErasers chip es old new).size l = e.blockSize :=
  size_eq (by rw [ofErasers, List.getElem?_map, h, Option.map_some])

theorem getElem?_sizes_ofErasers (chip : Chip) (es : List Eraser) (old new : Image) (l : ℕ) :
    (ofErasers chip es old new).sizes[l]? = es[l]?.map Eraser.blockSize := List.getElem?_map ..

theorem regular_of_nested (chip : Chip) (old new : Image) (h : Nested es) :
    (ofErasers chip es old new).Regular := by
  have hlen : (ofErasers chip es old new).sizes.length = es.length := List.length_map _
  have hsize : ∀ l (hl : l < es.length), (ofErasers chip es old new).size l = es[l].blockSize :=
    fun l hl => size_ofErasers (List.getElem?_eq_getElem hl)
  refine ⟨fun l hl => ?_, fun l l' hl hl' => ?_, fun l l' hl hl' => ?_⟩
  · rw [hsize l (hlen ▸ hl)]
    exact es[l].blockSize_pos
  all_goals
    rw [hlen] at hl'
    rw [hsize l (by omega), hsize l' hl']
  · exact (List.pairwise_iff_getElem.1 h l l' (by omega) hl' hl).1
  · exact (List.pairwise_iff_getElem.1 h l l' (by omega) hl' hl).2

/-- A whole block of the next level is made up of whole blocks. -/
theorem mul_le_count {j k : ℕ} (hpos : 0 < c.size l) (hk : c.size (l + 1) = c.size l * k)
    (hj : j < c.count (l + 1)) : (j + 1) * k ≤ c.count l := by
  rw [count, Nat.le_div_iff_mul_le hpos]
  rw [count, hk] at hj
  have hcoarse : 0 < c.size l * k := Nat.pos_of_ne_zero fun h0 => by simp [h0] at hj
  calc (j + 1) * k * c.size l = (j + 1) * (c.size l * k) := by ring
    _ ≤ c.chipSize := (Nat.le_div_iff_mul_le hcoarse).1 hj

/-- A byte that changes is not erased before or not erased after. -/
theorem isSet_ofDiff (old new : Image) (erased : UInt8) (s : Span) :
    (Mark.ofDiff old new erased s).isSet = s.any (Image.differsAt old new) := by
  rw [← Bool.coe_iff_coe, Mark.isSet, Bool.or_eq_true, Mark.ofDiff]
  simp only [Span.any_iff, Bool.and_eq_true, Image.differsAt_iff, bne_iff_ne]
  constructor
  · rintro (⟨a, ha, h, -⟩ | ⟨a, ha, h, -⟩) <;> exact ⟨a, ha, h⟩
  · rintro ⟨a, ha, h⟩
    by_cases he : old.byte a = erased
    · exact .inr ⟨a, ha, h, fun hn => h (he.trans hn.symm)⟩
    · exact .inl ⟨a, ha, h, he⟩

end Comparison

namespace ChangeMap

open Comparison

variable {c : Comparison} {f m : ChangeMap} {ms : List ChangeMap} {l : ℕ}

/-- The map of level `l` marks for an erase exactly the folded blocks. On the finest level it
marks the blocks that change, on a coarser one no others than those that it erases. -/
structure Reflects (c : Comparison) (l : ℕ) (m : ChangeMap) : Prop where
  blockSize : m.blockSize = c.size l
  limit : ∀ n, c.sizes[l + 1]? = some n → m.limit = foldLimit (c.size l) n
  size : m.marks.size = c.count l
  erase : ∀ j, m.marks[j]?.any Mark.erase = (decide (j < c.count l) && c.folded l j)
  isSet : ∀ j, m.marks[j]?.any Mark.isSet =
    (decide (j < c.count l) && if l = 0 then c.touched (c.span 0 j) else c.folded l j)

theorem countP_extract {α : Type} (xs : Array α) (p : α → Bool) (s k : ℕ) (h : s + k ≤ xs.size) :
    (xs.extract s (s + k)).countP p = (List.range k).countP fun i => xs[s + i]?.any p := by
  induction k with
  | zero => simp
  | succ k ih =>
    rw [← Nat.add_assoc, Array.extract_succ_right (by omega) (by omega), Array.countP_push,
      ih (by omega), List.range_succ, List.countP_append, List.countP_singleton,
      Array.getElem?_eq_getElem (by omega)]
    rfl

/-- The whole finer blocks in a block of the next level have marks. -/
theorem lt_count_of_lt {i j : ℕ} (hpos : 0 < c.size l) (hdvd : c.size l ∣ c.size (l + 1))
    (hj : j < c.count (l + 1)) (hi : i < c.size (l + 1) / c.size l) :
    j * (c.size (l + 1) / c.size l) + i < c.count l := by
  obtain ⟨k, hk⟩ := hdvd
  have hle : (j + 1) * k ≤ c.count l := mul_le_count hpos hk hj
  rw [hk, Nat.mul_div_cancel_left _ hpos] at hi ⊢
  linarith

/-- The marks inside a block of the next level are those of the finer blocks in it. -/
theorem countP_inside_eq (hf : f.Reflects c l) (hpos : 0 < c.size l)
    (hdvd : c.size l ∣ c.size (l + 1)) (p : Mark → Bool) {j : ℕ} (hj : j < c.count (l + 1)) :
    (f.inside (c.size (l + 1)) j).countP p =
      (List.range (c.size (l + 1) / c.size l)).countP fun i =>
        f.marks[j * (c.size (l + 1) / c.size l) + i]?.any p := by
  obtain ⟨k, hk⟩ := hdvd
  have hcut : ∀ n, n * (c.size l * k) / c.size l = n * k := fun n => by
    rw [Nat.mul_left_comm, Nat.mul_div_cancel_left _ hpos]
  have hle : (j + 1) * k ≤ c.count l := mul_le_count hpos hk hj
  have hsize := hf.size
  rw [inside, hf.blockSize, hk, hcut, hcut, Nat.mul_div_cancel_left _ hpos, Nat.add_mul,
    Nat.one_mul, countP_extract _ _ _ _ (by rw [hsize]; linarith)]

/-- How many of the finer blocks in block `j` of the next level need an erase. -/
theorem countP_inside (hf : f.Reflects c l) (hpos : 0 < c.size l)
    (hdvd : c.size l ∣ c.size (l + 1)) {j : ℕ} (hj : j < c.count (l + 1)) :
    (f.inside (c.size (l + 1)) j).countP Mark.erase =
      (List.range (c.size (l + 1) / c.size l)).countP fun i =>
        c.folded l (j * (c.size (l + 1) / c.size l) + i) := by
  rw [countP_inside_eq hf hpos hdvd Mark.erase hj]
  refine List.countP_congr fun i hi => ?_
  rw [hf.erase, decide_eq_true (lt_count_of_lt hpos hdvd hj (List.mem_range.1 hi)), Bool.true_and]

/-- Some mark inside a block of the next level passes the test. -/
theorem any_inside (hf : f.Reflects c l) (hpos : 0 < c.size l)
    (hdvd : c.size l ∣ c.size (l + 1)) (p : Mark → Bool) {j : ℕ} (hj : j < c.count (l + 1)) :
    (f.inside (c.size (l + 1)) j).any p = true ↔ ∃ i < c.size (l + 1) / c.size l,
      f.marks[j * (c.size (l + 1) / c.size l) + i]?.any p = true := by
  have hcount := countP_inside_eq hf hpos hdvd p hj
  have hsome : (f.inside (c.size (l + 1)) j).any p = true ↔
      0 < (f.inside (c.size (l + 1)) j).countP p := by
    rw [Array.countP_pos_iff, Array.any_eq_true']
  rw [hsome, hcount, List.countP_pos_iff]
  simp only [List.mem_range]

/-- A mark of a promoted map is either empty or that of a folded block. -/
theorem getElem?_promoteFrom (hf : f.Reflects c l) (hpos : 0 < c.size l)
    (hdvd : c.size l ∣ c.size (l + 1)) {e : Eraser} (next : Option Eraser)
    (hsizes : c.sizes[l + 1]? = some e.blockSize) (j : ℕ) :
    (promoteFrom f (empty e next c.chipSize)).marks[j]? =
      if j < c.count (l + 1) then
        some (if c.folded (l + 1) j then
          { erase := true, write := (f.inside (c.size (l + 1)) j).any Mark.write } else Mark.none)
      else none := by
  have he := size_eq hsizes
  have hlimit : f.limit = 70 * (c.size (l + 1) / c.size l) / 100 := by
    rw [hf.limit _ hsizes, foldLimit, foldThreshold, Nat.mul_comm, he]
  have hcount : c.chipSize / e.blockSize = c.count (l + 1) := by rw [count, he]
  simp only [promoteFrom, empty, ChangeMap.blockSize, Array.getElem?_mapIdx, hcount,
    Array.getElem?_replicate]
  by_cases hj : j < c.count (l + 1)
  · rw [if_pos hj, if_pos hj, Option.map_some, ← he, countP_inside hf hpos hdvd hj, hlimit,
      folded]
    simp only [hj, decide_true, Bool.true_and, decide_eq_true_eq]
  · rw [if_neg hj, if_neg hj, Option.map_none]

/-- **One level of promotion.** -/
theorem promoteFrom_reflects (hf : f.Reflects c l) (hpos : 0 < c.size l)
    (hdvd : c.size l ∣ c.size (l + 1)) {e : Eraser} {next : Option Eraser}
    (hsizes : c.sizes[l + 1]? = some e.blockSize)
    (hnext : next.map Eraser.blockSize = c.sizes[l + 2]?) :
    (promoteFrom f (empty e next c.chipSize)).Reflects c (l + 1) := by
  have he := size_eq hsizes
  have hcount : c.chipSize / e.blockSize = c.count (l + 1) := by rw [count, he]
  have hmark := getElem?_promoteFrom hf hpos hdvd next hsizes
  refine ⟨he.symm, fun n hn => ?_, ?_, fun j => ?_, fun j => ?_⟩
  · rw [hn] at hnext
    obtain ⟨e', rfl, rfl⟩ := Option.map_eq_some_iff.1 hnext
    simp [promoteFrom, empty, he]
  · simp [promoteFrom, empty, hcount]
  · rw [hmark]
    by_cases hj : j < c.count (l + 1) <;> cases c.folded (l + 1) j <;> simp [hj, Mark.none]
  · rw [hmark, if_neg (Nat.succ_ne_zero l)]
    by_cases hj : j < c.count (l + 1) <;> cases c.folded (l + 1) j <;>
      simp [hj, Mark.none, Mark.isSet]

/-- A mark of the finest map says what the bytes of its block need. -/
theorem getElem?_fill {e : Eraser} (next : Option Eraser)
    (hsizes : c.sizes[0]? = some e.blockSize) (hold : c.old.size = c.chipSize)
    (hnew : c.new.size = c.chipSize) (j : ℕ) :
    ((empty e next c.chipSize).fill c.old c.new c.erased).marks[j]? =
      if j < c.count 0 then some (Mark.ofDiff c.old c.new c.erased (c.span 0 j)) else none := by
  have he := size_eq hsizes
  have hcount : c.chipSize / e.blockSize = c.count 0 := by rw [count, he]
  simp only [fill, empty, ChangeMap.blockSize, Array.getElem?_mapIdx, hcount, hold, hnew,
    Nat.min_self, Array.getElem?_replicate]
  by_cases hj : j < c.count 0
  · rw [if_pos hj, if_pos hj, Option.map_some, if_pos hj, span, he]
    rfl
  · rw [if_neg hj, if_neg hj, Option.map_none]

/-- The finest map is filled by comparing the images. -/
theorem fill_reflects {e : Eraser} {next : Option Eraser} (hsizes : c.sizes[0]? = some e.blockSize)
    (hnext : next.map Eraser.blockSize = c.sizes[1]?)
    (hold : c.old.size = c.chipSize) (hnew : c.new.size = c.chipSize) :
    ((empty e next c.chipSize).fill c.old c.new c.erased).Reflects c 0 := by
  have he := size_eq hsizes
  have hcount : c.chipSize / e.blockSize = c.count 0 := by rw [count, he]
  have hmark := getElem?_fill next hsizes hold hnew
  refine ⟨he.symm, fun n hn => ?_, ?_, fun j => ?_, fun j => ?_⟩
  · rw [hn] at hnext
    obtain ⟨e', rfl, rfl⟩ := Option.map_eq_some_iff.1 hnext
    simp [fill, empty, he]
  · simp [fill, empty, hcount]
  · rw [hmark]
    by_cases hj : j < c.count 0 <;> simp [hj, folded, dirty, Mark.ofDiff]
  · rw [hmark, if_pos rfl]
    by_cases hj : j < c.count 0 <;> simp [hj, isSet_ofDiff, touched]

/-! ## All levels -/

theorem getElem?_build (n : ℕ) (es : List Eraser) (l : ℕ) :
    (build n es)[l]? = es[l]?.map fun e => empty e es[l + 1]? n := by
  induction es generalizing l with
  | nil => rfl
  | cons e es ih =>
    cases l with
    | zero => simp [build, List.head?_eq_getElem?]
    | succ l => simpa [build] using ih l

theorem getElem?_promoteAll {g : ChangeMap} (hg : (f :: promoteAll f ms)[l]? = some g)
    (hm : ms[l]? = some m) : (promoteAll f ms)[l]? = some (promoteFrom g m) := by
  induction ms generalizing f l with
  | nil => cases hm
  | cons x xs ih =>
    cases l with
    | zero => cases hg; cases hm; rfl
    | succ l => exact ih (f := promoteFrom f x) hg hm

theorem map_eraser_promoteAll (f : ChangeMap) :
    ∀ ms : List ChangeMap, (promoteAll f ms).map eraser = ms.map eraser
  | [] => rfl
  | m :: ms => by
    rw [promoteAll, List.map_cons, List.map_cons, map_eraser_promoteAll]
    rfl

theorem map_eraser_build (n : ℕ) : ∀ es : List Eraser, (build n es).map eraser = es
  | [] => rfl
  | e :: es => by rw [build, List.map_cons, map_eraser_build n es]; rfl

/-- The maps of a comparison before they are settled. -/
def promoted (c : Comparison) : List Eraser → List ChangeMap
  | [] => []
  | e :: es =>
    promote ((empty e es.head? c.chipSize).fill c.old c.new c.erased :: build c.chipSize es)

theorem compare_eq_settle (chip : Chip) (es : List Eraser) (old new : Image) :
    compare chip es old new = settle (promoted (ofErasers chip es old new) es) := by
  cases es <;> rfl

theorem map_eraser_promoted (c : Comparison) (es : List Eraser) :
    (promoted c es).map eraser = es := by
  cases es with
  | nil => rfl
  | cons e es =>
    rw [promoted, promote, List.map_cons, map_eraser_promoteAll, map_eraser_build]
    rfl

theorem length_promoted (c : Comparison) (es : List Eraser) :
    (promoted c es).length = es.length := by
  rw [← List.length_map eraser, map_eraser_promoted]

/-- Every map but the finest comes from the map of the level below. -/
theorem exists_promoted_succ {c : Comparison} {es : List Eraser}
    (h : (promoted c es)[l + 1]? = some m) :
    ∃ g e, (promoted c es)[l]? = some g ∧ es[l + 1]? = some e ∧
      m = promoteFrom g (empty e es[l + 2]? c.chipSize) := by
  have hlength := length_promoted c es
  obtain ⟨hl, -⟩ := List.getElem?_eq_some_iff.1 h
  cases es with
  | nil => cases h
  | cons e es =>
    have hle : l < es.length := by rw [hlength, List.length_cons] at hl; omega
    obtain ⟨g, hg⟩ : ∃ g, (promoted c (e :: es))[l]? = some g :=
      ⟨_, List.getElem?_eq_getElem (by omega)⟩
    have hb := getElem?_build c.chipSize es l
    rw [List.getElem?_eq_getElem hle, Option.map_some] at hb
    have hnext := getElem?_promoteAll hg hb
    rw [promoted, promote, List.getElem?_cons_succ, hnext] at h
    exact ⟨g, es[l], hg, List.getElem?_eq_getElem hle, (Option.some.inj h).symm⟩

/-- What holds of the finest map and passes from each map to the next holds of every map. -/
theorem promoted_induction {c : Comparison} {es : List Eraser} {P : ℕ → ChangeMap → Prop}
    (hfinest : ∀ e, es[0]? = some e →
      P 0 ((empty e es[1]? c.chipSize).fill c.old c.new c.erased))
    (hnext : ∀ l g e, (promoted c es)[l]? = some g → es[l + 1]? = some e → P l g →
      P (l + 1) (promoteFrom g (empty e es[l + 2]? c.chipSize))) :
    ∀ (l : ℕ) (m : ChangeMap), (promoted c es)[l]? = some m → P l m := by
  intro l
  induction l with
  | zero =>
    intro m hm
    cases es with
    | nil => cases hm
    | cons e es =>
      cases hm
      have h := hfinest e rfl
      rwa [List.getElem?_cons_succ, ← List.head?_eq_getElem?] at h
  | succ l ih =>
    intro m hm
    obtain ⟨g, e, hg, he, rfl⟩ := exists_promoted_succ hm
    exact hnext l g e hg he (ih g hg)

/-- **After promotion every map reflects its level.** -/
theorem promoted_reflects {chip : Chip} {es : List Eraser} {old new : Image} (hes : Nested es)
    (hold : old.size = chip.totalSize) (hnew : new.size = chip.totalSize) :
    ∀ (l : ℕ) (m : ChangeMap), (promoted (ofErasers chip es old new) es)[l]? = some m →
      m.Reflects (ofErasers chip es old new) l := by
  have hreg := regular_of_nested chip old new hes
  have hsizes := getElem?_sizes_ofErasers chip es old new
  set c := ofErasers chip es old new with hc
  have hlen : c.sizes.length = es.length := List.length_map _
  refine promoted_induction (fun e he => ?_) fun l g e _ he hg => ?_
  · refine fill_reflects ?_ (hsizes 1).symm hold hnew
    rw [hsizes, he, Option.map_some]
  · have hl : l + 1 < c.sizes.length := by
      rw [hlen]
      exact (List.getElem?_eq_some_iff.1 he).1
    refine promoteFrom_reflects hg (hreg.pos l (by omega))
      (hreg.dvd l (l + 1) (Nat.lt_succ_self l) hl) ?_ (hsizes (l + 2)).symm
    rw [hsizes, he, Option.map_some]

end ChangeMap

end Reflash
