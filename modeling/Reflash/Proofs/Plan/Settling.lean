import Reflash.Proofs.Plan.Erasers
import Reflash.Proofs.Plan.Runs

/-!
# Settled maps

`settle` works from the coarsest map down and clears, map by map, what lies inside
blocks that are erased as a whole. With block sizes that divide each other it comes
to one test per block on the maps it started from (`settle_cons`), because clearing
a map never changes whether an address is erased by some map (`any_erasesAt_settle`).

* `settle_cons`, `getElem?_settle`: a settled map in terms of the maps before settling.
* `settle_disjoint`: no address is marked in two settled maps.
-/

namespace Reflash.ChangeMap

/-- The maps are those of nested erasers, finest first. -/
def Stacked (ms : List ChangeMap) : Prop := Nested (ms.map eraser)

/-- In the maps `ms`, the address is in a block that is erased as a whole. -/
def erasedAt (ms : List ChangeMap) (a : ℕ) : Bool := ms.any (·.erasesAt a)

/-- The map without the marks of the blocks that maps in `coarser` erase. -/
def clearedBy (m : ChangeMap) (coarser : List ChangeMap) : ChangeMap :=
  { m with
    marks := m.marks.mapIdx fun i mark =>
      if erasedAt coarser (i * m.blockSize) then Mark.none else mark }

/-- A block that is marked at all needs an erase. -/
def Solid (m : ChangeMap) : Prop := ∀ mark ∈ m.marks, mark.isSet = true → mark.erase = true

variable {m c : ChangeMap} {ms : List ChangeMap} {a b : ℕ}

theorem Stacked.tail (h : Stacked (m :: ms)) : Stacked ms := (List.pairwise_cons.1 h).2

theorem Stacked.dvd (h : Stacked (m :: ms)) (hc : c ∈ ms) : m.blockSize ∣ c.blockSize :=
  ((List.pairwise_cons.1 h).1 _ (List.mem_map_of_mem hc)).2

theorem erasedAt_iff : erasedAt ms a = true ↔ ∃ c ∈ ms, c.erasesAt a = true := List.any_eq_true

/-- Coarser blocks are made up of whole finer ones. -/
theorem div_congr {x y : ℕ} (h : x ∣ y) (hab : a / x = b / x) : a / y = b / y := by
  obtain ⟨k, rfl⟩ := h
  rw [← Nat.div_div_eq_div_mul, hab, Nat.div_div_eq_div_mul]

theorem erasesAt_congr (h : m.blockSize ∣ c.blockSize) (hab : a / m.blockSize = b / m.blockSize) :
    c.erasesAt a = c.erasesAt b := by
  unfold erasesAt markAt
  rw [div_congr h hab]

/-- The maps behind `m` do not tell apart the addresses of one block of `m`. -/
theorem erasedAt_congr (h : Stacked (m :: ms)) (hab : a / m.blockSize = b / m.blockSize) :
    erasedAt ms a = erasedAt ms b := by
  have key : ∀ c ∈ ms, c.erasesAt a = c.erasesAt b := fun c hc => erasesAt_congr (h.dvd hc) hab
  unfold erasedAt
  rw [← Bool.coe_iff_coe, List.any_eq_true, List.any_eq_true]
  exact ⟨fun ⟨c, hc, h⟩ => ⟨c, hc, key c hc ▸ h⟩, fun ⟨c, hc, h⟩ => ⟨c, hc, (key c hc).symm ▸ h⟩⟩

/-- The last byte of a block lies in that block. -/
theorem last_div (m : ChangeMap) (i : ℕ) : ((i + 1) * m.blockSize - 1) / m.blockSize = i := by
  have := m.blockSize_pos
  rw [Nat.div_eq_iff this, Nat.add_mul]
  omega

theorem markAt_clearedBy (hst : Stacked (m :: ms)) : (m.clearedBy ms).markAt a =
    (m.markAt a).map fun mark => if erasedAt ms a then Mark.none else mark := by
  have hfirst : a / m.blockSize * m.blockSize / m.blockSize = a / m.blockSize :=
    Nat.mul_div_cancel _ m.blockSize_pos
  have hany := erasedAt_congr hst hfirst
  show (Array.mapIdx _ m.marks)[a / m.blockSize]? = _
  rw [Array.getElem?_mapIdx]
  simp only [hany, markAt]

theorem marksAt_clearedBy (hst : Stacked (m :: ms)) :
    (m.clearedBy ms).marksAt a = (m.marksAt a && !erasedAt ms a) := by
  unfold marksAt
  rw [markAt_clearedBy hst]
  cases m.markAt a <;> cases erasedAt ms a <;> simp [Mark.none, Mark.isSet]

theorem erasesAt_clearedBy (hst : Stacked (m :: ms)) :
    (m.clearedBy ms).erasesAt a = (m.erasesAt a && !erasedAt ms a) := by
  unfold erasesAt
  rw [markAt_clearedBy hst]
  cases m.markAt a <;> cases erasedAt ms a <;> simp [Mark.none]

/-! ## Clearing map by map -/

theorem foldr_clearInside (m : ChangeMap) (cs : List ChangeMap) :
    cs.foldr (fun c m => m.clearInside c) m =
      { m with
        marks := m.marks.mapIdx fun i mark =>
          if erasedAt cs ((i + 1) * m.blockSize - 1) then Mark.none else mark } := by
  induction cs with
  | nil =>
    have hid : m.marks.mapIdx (fun i mark =>
        if erasedAt [] ((i + 1) * m.blockSize - 1) then Mark.none else mark) = m.marks := by
      apply Array.ext_getElem?
      intro i
      simp [erasedAt]
    rw [List.foldr_nil, hid]
  | cons c cs ih =>
    rw [List.foldr_cons, ih]
    simp only [clearInside, blockSize, mk.injEq, true_and]
    apply Array.ext_getElem?
    intro i
    simp only [Array.getElem?_mapIdx, Option.map_map]
    congr 1
    funext mark
    simp only [Function.comp_apply, erasedAt, List.any_cons, Bool.or_eq_true, ite_or]
    rfl

theorem map_eraser_settle : ∀ ms : List ChangeMap, (settle ms).map eraser = ms.map eraser
  | [] => rfl
  | m :: ms => by
    rw [settle, List.map_cons, List.map_cons, map_eraser_settle ms, foldr_clearInside]

theorem Stacked.settle (h : Stacked ms) : Stacked (settle ms) := by
  unfold Stacked
  rwa [map_eraser_settle]

/-- **The finest settled map** in terms of the maps before settling. -/
theorem settle_cons_of (hst : Stacked (m :: ms))
    (hany : ∀ a, erasedAt (settle ms) a = erasedAt ms a) :
    settle (m :: ms) = m.clearedBy ms :: settle ms := by
  rw [settle, foldr_clearInside]
  simp only [clearedBy, List.cons.injEq, and_true, mk.injEq, true_and]
  apply Array.ext_getElem?
  intro i
  rw [Array.getElem?_mapIdx, Array.getElem?_mapIdx, hany,
    erasedAt_congr hst ((last_div m i).trans (Nat.mul_div_cancel i m.blockSize_pos).symm)]

/-- **Settling changes no verdict on an address**: some map erases it exactly if one did before.
A block is only cleared for a coarser one that keeps its mark. -/
theorem any_erasesAt_settle (hst : Stacked ms) (a : ℕ) :
    erasedAt (settle ms) a = erasedAt ms a := by
  induction ms generalizing a with
  | nil => rfl
  | cons m ms ih =>
    have ih := ih hst.tail
    rw [settle_cons_of hst ih]
    have hcons : ∀ (c : ChangeMap) cs, erasedAt (c :: cs) a = (c.erasesAt a || erasedAt cs a) :=
      fun _ _ => rfl
    -- `m` only loses marks where a coarser map erases anyway
    rw [hcons, hcons, ih, erasesAt_clearedBy hst]
    cases m.erasesAt a <;> cases erasedAt ms a <;> rfl

theorem settle_cons (hst : Stacked (m :: ms)) : settle (m :: ms) = m.clearedBy ms :: settle ms :=
  settle_cons_of hst (any_erasesAt_settle hst.tail)

/-- **Every settled map** in terms of the maps before settling. -/
theorem getElem?_settle (hst : Stacked ms) (l : ℕ) :
    (settle ms)[l]? = ms[l]?.map fun m => m.clearedBy (ms.drop (l + 1)) := by
  induction ms generalizing l with
  | nil => rfl
  | cons m ms ih =>
    rw [settle_cons hst]
    cases l with
    | zero => rfl
    | succ l => exact ih hst.tail l

/-- Clearing keeps marked blocks as they are. -/
theorem Solid.clearedBy (h : m.Solid) (ms : List ChangeMap) : (m.clearedBy ms).Solid := by
  intro mark hm hset
  obtain ⟨i, hi⟩ := Array.mem_iff_getElem?.1 hm
  simp only [ChangeMap.clearedBy, Array.getElem?_mapIdx, Option.map_eq_some_iff] at hi
  obtain ⟨old, hold, rfl⟩ := hi
  split at hset
  · cases hset
  · rename_i hn
    rw [if_neg hn]
    exact h old (Array.mem_of_getElem? hold) hset

theorem Solid.erasesAt (h : m.Solid) (ha : m.marksAt a = true) : m.erasesAt a = true := by
  simp only [marksAt, ChangeMap.erasesAt, markAt, Option.any_eq_true] at ha ⊢
  obtain ⟨mark, hmark, hset⟩ := ha
  exact ⟨mark, hmark, h mark (Array.mem_of_getElem? hmark) hset⟩

theorem settle_solid (hst : Stacked ms) (h : ∀ c ∈ ms, c.Solid) : ∀ c ∈ settle ms, c.Solid := by
  induction ms with
  | nil => exact h
  | cons m ms ih =>
    rw [settle_cons hst]
    intro c hc
    rcases List.mem_cons.1 hc with rfl | hc
    · exact (h m List.mem_cons_self).clearedBy ms
    · exact ih hst.tail (fun c hc => h c (List.mem_cons_of_mem _ hc)) c hc

/-- **No address is marked in two settled maps**, if in all but the finest one marked blocks are
erased. -/
theorem settle_disjoint (hst : Stacked ms) (h : ∀ c ∈ ms.tail, c.Solid) :
    (settle ms).Pairwise fun m c => ∀ a, m.marksAt a = true → c.marksAt a = false := by
  induction ms with
  | nil => exact List.Pairwise.nil
  | cons m ms ih =>
    rw [settle_cons hst]
    refine List.pairwise_cons.2 ⟨fun c hc a ha => ?_,
      ih hst.tail fun c hc => h c (List.mem_of_mem_tail hc)⟩
    rw [marksAt_clearedBy hst, Bool.and_eq_true, Bool.not_eq_true'] at ha
    cases hca : c.marksAt a with
    | false => rfl
    | true =>
      -- a mark of a coarser map erases, so `m` was cleared there
      have hce := (settle_solid hst.tail h c hc).erasesAt hca
      have := erasedAt_iff.2 ⟨c, hc, hce⟩
      rw [any_erasesAt_settle hst.tail, ha.2] at this
      cases this

/-- Some settled map marks an address exactly if the finest map does or some map erases it. -/
theorem exists_marksAt_settle (hst : Stacked (m :: ms)) (h : ∀ c ∈ ms, c.Solid) :
    (∃ c ∈ settle (m :: ms), c.marksAt a = true) ↔ m.marksAt a = true ∨ erasedAt ms a = true := by
  have hsolid := settle_solid hst.tail h
  rw [settle_cons hst]
  simp only [List.mem_cons, exists_eq_or_imp, marksAt_clearedBy hst, Bool.and_eq_true,
    Bool.not_eq_true']
  constructor
  · rintro (⟨hm, -⟩ | ⟨c, hc, hca⟩)
    · exact .inl hm
    · right
      rw [← any_erasesAt_settle hst.tail]
      exact erasedAt_iff.2 ⟨c, hc, (hsolid c hc).erasesAt hca⟩
  · intro hor
    cases he : erasedAt ms a with
    | false => exact .inl ⟨hor.resolve_right (by simp [he]), rfl⟩
    | true =>
      rw [← any_erasesAt_settle hst.tail] at he
      obtain ⟨c, hc, hca⟩ := erasedAt_iff.1 he
      refine .inr ⟨c, hc, ?_⟩
      simp only [erasesAt, marksAt, Option.any_eq_true] at hca ⊢
      obtain ⟨mark, hmark, he⟩ := hca
      exact ⟨mark, hmark, by simp [Mark.isSet, he]⟩

end Reflash.ChangeMap
