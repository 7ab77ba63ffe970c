import Reflash.Proofs.Image
import Reflash.Proofs.Plan.Blocks

/-!
# What marks say

A mark is truthful if it says of the bytes of its block what comparing them would say
(`Comparison.Truthful`). The marks of the finest level are, because they come from a
comparison. A mark of a coarser level comes from the marks of the level below, and behind the
finest level only folded blocks have one. So of writes it says what reached it through folded
blocks (`Comparison.Lifted`).

* `promoted_carries`: after promotion, every map carries the writes that reached its level.
* `marked_compare`: what the marks that are left in the end say.
* `exists_standIn`: images of any sizes are compared like two of the size of the chip.
-/

namespace Reflash

namespace Comparison

/-- The byte changes and is not erased before, so that its block has to be erased. -/
def ErasesAt (c : Comparison) (a : ℕ) : Prop :=
  c.old.byte a ≠ c.new.byte a ∧ c.old.byte a ≠ c.erased

/-- The byte changes and is not erased afterwards, so that it has to be written. -/
def WritesAt (c : Comparison) (a : ℕ) : Prop :=
  c.old.byte a ≠ c.new.byte a ∧ c.new.byte a ≠ c.erased

/-- What the mark says of the bytes in the span is true. -/
structure Truthful (c : Comparison) (s : Span) (mark : Mark) : Prop where
  erase : mark.erase = true ↔ ∃ a ∈ s, c.ErasesAt a
  write : mark.write = true ↔ ∃ a ∈ s, c.WritesAt a

/-- The byte lies in folded blocks of all levels up to `l`, the finest level apart. -/
def Lifted (c : Comparison) (l a : ℕ) : Prop :=
  ∀ k, 0 < k → k ≤ l → c.folded k (a / c.size k) = true

variable {c : Comparison} {l j a : ℕ} {s : Span}

theorem dirty_iff : c.dirty s = true ↔ ∃ a ∈ s, c.ErasesAt a := by
  simp only [dirty, Span.any_iff, Bool.and_eq_true, Image.differsAt_iff, bne_iff_ne, ErasesAt]

theorem write_ofDiff :
    (Mark.ofDiff c.old c.new c.erased s).write = true ↔ ∃ a ∈ s, c.WritesAt a := by
  simp only [Mark.ofDiff, Span.any_iff, Bool.and_eq_true, Image.differsAt_iff, bne_iff_ne,
    WritesAt]

theorem lifted_zero : c.Lifted 0 a := fun _ hpos hle => absurd hle hpos.not_ge

theorem lifted_succ :
    c.Lifted (l + 1) a ↔ c.Lifted l a ∧ c.folded (l + 1) (a / c.size (l + 1)) = true := by
  constructor
  · intro h
    exact ⟨fun k hpos hle => h k hpos (hle.trans (Nat.le_succ l)), h _ (Nat.succ_pos l) le_rfl⟩
  · rintro ⟨h, hlast⟩ k hpos hle
    rcases Nat.of_le_succ hle with hle | rfl
    · exact h k hpos hle
    · exact hlast

end Comparison

namespace ChangeMap

open Comparison

variable {c : Comparison} {f m : ChangeMap} {l j : ℕ} {chip : Chip} {es : List Eraser}
  {old new : Image} {mark : Mark}

/-- The map of level `l` marks for a write exactly the blocks with a byte that has to be written
and that lies in folded blocks up to that level. -/
def Carries (c : Comparison) (l : ℕ) (m : ChangeMap) : Prop :=
  ∀ j, m.marks[j]?.any Mark.write = true ↔
    j < c.count l ∧ ∃ a ∈ c.span l j, c.WritesAt a ∧ c.Lifted l a

theorem fill_carries {e : Eraser} (next : Option Eraser)
    (hsizes : c.sizes[0]? = some e.blockSize) (hold : c.old.size = c.chipSize)
    (hnew : c.new.size = c.chipSize) :
    ((empty e next c.chipSize).fill c.old c.new c.erased).Carries c 0 := by
  intro j
  rw [getElem?_fill next hsizes hold hnew]
  by_cases hj : j < c.count 0
  · simp only [hj, if_true, Option.any_some, write_ofDiff, true_and, lifted_zero, and_true]
  · simp [hj]

/-- **One level of promotion.** A coarser block takes over what the finer ones in it carry, if it
is folded, and is left empty otherwise. -/
theorem promoteFrom_carries (hf : f.Reflects c l) (hcarry : f.Carries c l) (hpos : 0 < c.size l)
    (hpos' : 0 < c.size (l + 1)) (hdvd : c.size l ∣ c.size (l + 1)) {e : Eraser}
    (next : Option Eraser) (hsizes : c.sizes[l + 1]? = some e.blockSize) :
    (promoteFrom f (empty e next c.chipSize)).Carries c (l + 1) := by
  intro j
  rw [getElem?_promoteFrom hf hpos hdvd next hsizes]
  by_cases hj : j < c.count (l + 1)
  swap
  · simp [hj]
  rw [if_pos hj, Option.any_some]
  cases hfold : c.folded (l + 1) j with
  | false =>
    refine iff_of_false (by simp [Mark.none]) ?_
    rintro ⟨-, a, ha, -, hlift⟩
    have := (lifted_succ.1 hlift).2
    rw [(mem_span_iff hpos').1 ha, hfold] at this
    cases this
  | true =>
    rw [if_pos rfl, any_inside hf hpos hdvd Mark.write hj]
    constructor
    · rintro ⟨i, hi, hwrite⟩
      obtain ⟨-, a, ha, hw, hlift⟩ := (hcarry _).1 hwrite
      have hmem := (mem_span_succ_iff hpos hpos' hdvd).2 ⟨i, hi, ha⟩
      refine ⟨hj, a, hmem, hw, lifted_succ.2 ⟨hlift, ?_⟩⟩
      rw [(mem_span_iff hpos').1 hmem, hfold]
    · rintro ⟨-, a, ha, hw, hlift⟩
      obtain ⟨i, hi, hmem⟩ := (mem_span_succ_iff hpos hpos' hdvd).1 ha
      exact ⟨i, hi, (hcarry _).2
        ⟨lt_count_of_lt hpos hdvd hj hi, a, hmem, hw, (lifted_succ.1 hlift).1⟩⟩

/-- **After promotion every map carries the writes that reached its level.** -/
theorem promoted_carries (hes : Nested es) (hold : old.size = chip.totalSize)
    (hnew : new.size = chip.totalSize) :
    ∀ (l : ℕ) (m : ChangeMap), (promoted (ofErasers chip es old new) es)[l]? = some m →
      m.Carries (ofErasers chip es old new) l := by
  have hreg := regular_of_nested chip old new hes
  have hreflects := promoted_reflects hes hold hnew
  have hsizes := getElem?_sizes_ofErasers chip es old new
  set c := ofErasers chip es old new with hc
  have hlen : c.sizes.length = es.length := List.length_map _
  refine promoted_induction (fun e he => ?_) fun l g e hg he hcarry => ?_
  · refine fill_carries _ ?_ hold hnew
    rw [hsizes, he, Option.map_some]
  · have hl : l + 1 < c.sizes.length := by
      rw [hlen]
      exact (List.getElem?_eq_some_iff.1 he).1
    refine promoteFrom_carries (hreflects l g hg) hcarry (hreg.pos l (by omega))
      (hreg.pos (l + 1) hl) (hreg.dvd l (l + 1) (Nat.lt_succ_self l) hl) _ ?_
    rw [hsizes, he, Option.map_some]

/-! ## The marks that are left -/

/-- Block number `j` of level `l` has this mark, which says that something is needed. -/
def Marked (maps : List ChangeMap) (l j : ℕ) (mark : Mark) : Prop :=
  ∃ m, maps[l]? = some m ∧ m.marks[j]? = some mark ∧ mark.isSet = true

/-- Settling takes marks away and changes none. -/
theorem Marked.promoted (hes : Nested es) (h : Marked (compare chip es old new) l j mark) :
    Marked (promoted (ofErasers chip es old new) es) l j mark := by
  obtain ⟨m, hm, hmark, hset⟩ := h
  rw [compare_eq_settle, getElem?_settle (stacked_promoted _ hes), Option.map_eq_some_iff] at hm
  obtain ⟨m₀, hm₀, rfl⟩ := hm
  simp only [clearedBy, Array.getElem?_mapIdx, Option.map_eq_some_iff] at hmark
  obtain ⟨mark₀, hmark₀, rfl⟩ := hmark
  split at hset
  · cases hset
  · rename_i hkept
    rw [if_neg hkept]
    exact ⟨m₀, hm₀, hmark₀, hset⟩

theorem Marked.lt_length (hes : Nested es) (h : Marked (compare chip es old new) l j mark) :
    l < es.length := by
  obtain ⟨m, hm, -⟩ := h.promoted hes
  rw [← length_promoted (ofErasers chip es old new) es]
  exact (List.getElem?_eq_some_iff.1 hm).1

/-- **What a mark says.** It is truthful about erases, and it shows a write exactly if a byte has to
be written that lies in folded blocks up to its level. -/
theorem marked_compare (hes : Nested es) (hold : old.size = chip.totalSize)
    (hnew : new.size = chip.totalSize) (h : Marked (compare chip es old new) l j mark) :
    (mark.erase = true ↔
      ∃ a ∈ (ofErasers chip es old new).span l j, (ofErasers chip es old new).ErasesAt a) ∧
    (mark.write = true ↔
      ∃ a ∈ (ofErasers chip es old new).span l j, (ofErasers chip es old new).WritesAt a ∧
        (ofErasers chip es old new).Lifted l a) ∧
    (0 < l → (ofErasers chip es old new).folded l j = true) := by
  have hreg := regular_of_nested chip old new hes
  obtain ⟨m, hm, hmark, hset⟩ := h.promoted hes
  have href := promoted_reflects hes hold hnew l m hm
  have hwrite := promoted_carries hes hold hnew l m hm j
  have hl := h.lt_length hes
  set c := ofErasers chip es old new with hc
  have hlen : c.sizes.length = es.length := List.length_map _
  have hj : j < c.count l := by
    rw [← href.size]
    exact (Array.getElem?_eq_some_iff.1 hmark).1
  have herase := href.erase j
  have hsome := href.isSet j
  rw [hmark, Option.any_some, decide_eq_true hj, Bool.true_and] at herase hsome
  rw [hmark, Option.any_some, and_iff_right hj] at hwrite
  refine ⟨?_, hwrite, fun hpos => ?_⟩
  · rw [herase, ← dirty_iff]
    refine ⟨dirty_of_folded hreg (hl.trans_eq hlen.symm), fun hdirty => ?_⟩
    -- on the finest level the dirty blocks are the folded ones, on others all marked blocks are
    cases l with
    | zero => exact hdirty
    | succ l => rwa [hset, if_neg (Nat.succ_ne_zero l), eq_comm] at hsome
  · rwa [hset, if_neg hpos.ne', eq_comm] at hsome

/-- A planned block is marked in the end. -/
theorem exists_marked (hes : Nested es) (hold : old.size = chip.totalSize)
    (hnew : new.size = chip.totalSize) (hl : l < es.length)
    (h : (ofErasers chip es old new).Planned l j) :
    ∃ mark, Marked (compare chip es old new) l j mark := by
  have hlt : l < (settle (ChangeMap.promoted (ofErasers chip es old new) es)).length := by
    rwa [← List.length_map eraser, map_eraser_settle, map_eraser_promoted]
  have hm := List.getElem?_eq_getElem hlt
  obtain ⟨mark, hmark, hset⟩ :=
    (Option.any_eq_true ..).1 ((isSet_settle hes hold hnew hm).2.2 h)
  rw [compare_eq_settle]
  exact ⟨mark, _, hm, hmark, hset⟩

/-! ## Images of other sizes -/

/-- The bytes of the whole blocks of the finest level that both images have. -/
def compared (es : List Eraser) (old new : Image) : ℕ :=
  match es with
  | [] => 0
  | e :: _ => min old.size new.size / e.blockSize * e.blockSize

/-- Images of `n` bytes that stand for two of any sizes: up to address `k` they hold the same
bytes, and behind it they do not differ. -/
structure StandIn (k n : ℕ) (old new x y : Image) : Prop where
  sizes : x.size = n ∧ y.size = n
  same : ∀ a < k, a < n → x.byte a = old.byte a ∧ y.byte a = new.byte a
  rest : ∀ a, k ≤ a → x.byte a = y.byte a

/-- The image of `n` bytes that is `m` up to address `k` and zero behind it. -/
def upTo (k n : ℕ) (m : Image) : Image := Image.tabulate n fun a => if a < k then m.byte a else 0

theorem standIn_upTo (k n : ℕ) (old new : Image) :
    StandIn k n old new (upTo k n old) (upTo k n new) := by
  refine ⟨⟨Image.size_tabulate n _, Image.size_tabulate n _⟩, fun a hk hn => ?_, fun a hk => ?_⟩
  · simp only [upTo, Image.byte_tabulate, hn, hk, if_true, and_self]
  · simp only [upTo, Image.byte_tabulate, hk.not_gt, if_false]

variable {x y : Image} {v : UInt8} {s : Span}

theorem ofDiff_congr (h : ∀ a ∈ s, x.byte a = old.byte a ∧ y.byte a = new.byte a) :
    Mark.ofDiff old new v s = Mark.ofDiff x y v s := by
  have key : ∀ test : UInt8 → UInt8 → Bool,
      (s.any fun a => test (old.byte a) (new.byte a)) =
        s.any fun a => test (x.byte a) (y.byte a) := by
    intro test
    rw [← Bool.coe_iff_coe, Span.any_iff, Span.any_iff]
    refine exists_congr fun a => and_congr_right fun ha => ?_
    rw [(h a ha).1, (h a ha).2]
  exact congrArg₂ Mark.mk (key fun b b' => b != b' && b != v) (key fun b b' => b != b' && b' != v)

theorem ofDiff_eq_none (h : ∀ a ∈ s, x.byte a = y.byte a) : Mark.ofDiff x y v s = Mark.none := by
  have hno : ∀ p : ℕ → Bool, (s.any fun a => Image.differsAt x y a && p a) = false := by
    intro p
    rw [← Bool.not_eq_true, Span.any_iff]
    rintro ⟨a, ha, hd⟩
    rw [Bool.and_eq_true, Image.differsAt_iff] at hd
    exact hd.1 (h a ha)
  exact congrArg₂ Mark.mk (hno _) (hno _)

/-- A finest map is filled alike for two images and those that stand for them. -/
theorem StandIn.fill {e : Eraser} {next : Option Eraser} {k n : ℕ}
    (hk : min old.size new.size / e.blockSize = k)
    (h : StandIn (k * e.blockSize) n old new x y) :
    (empty e next n).fill old new v = (empty e next n).fill x y v := by
  have hsize : (empty e next n).blockSize = e.blockSize := rfl
  have hspan : ∀ i, (empty e next n).blockSpan i = ⟨i * e.blockSize, e.blockSize⟩ := fun _ => rfl
  have hmarks : (empty e next n).marks = Array.replicate (n / e.blockSize) Mark.none := rfl
  have hmin : min x.size y.size = n := by rw [h.sizes.1, h.sizes.2, Nat.min_self]
  simp only [ChangeMap.fill, mk.injEq, true_and]
  apply Array.ext_getElem?
  intro i
  simp only [Array.getElem?_mapIdx, hmarks, hsize, hspan, hmin, hk, Array.getElem?_replicate]
  by_cases hi : i < n / e.blockSize
  swap
  · rw [if_neg hi]
    rfl
  rw [if_pos hi, Option.map_some, Option.map_some, if_pos hi]
  congr 1
  by_cases hik : i < k
  · rw [if_pos hik]
    have hcompared := Nat.mul_le_mul_right e.blockSize (Nat.succ_le_of_lt hik)
    have hinside := (Nat.mul_le_mul_right e.blockSize (Nat.succ_le_of_lt hi)).trans
      (Nat.div_mul_le_self n e.blockSize)
    rw [Nat.succ_mul] at hcompared hinside
    exact ofDiff_congr fun a ha =>
      h.same a (ha.2.trans_le hcompared) (ha.2.trans_le hinside)
  · rw [if_neg hik]
    refine (ofDiff_eq_none fun a ha => h.rest a ?_).symm
    exact (Nat.mul_le_mul_right _ (Nat.le_of_not_lt hik)).trans ha.1

/-- **Images of other sizes.** Any two images are compared like two of the size of the chip that
stand for them. -/
theorem exists_standIn (chip : Chip) (es : List Eraser) (old new : Image) :
    ∃ x y, StandIn (compared es old new) chip.totalSize old new x y ∧
      compare chip es old new = compare chip es x y := by
  refine ⟨_, _, standIn_upTo _ _ old new, ?_⟩
  cases es with
  | nil => rfl
  | cons e es =>
    unfold compare
    simp only [build]
    rw [(standIn_upTo _ _ old new).fill rfl]
    rfl

end ChangeMap

end Reflash
