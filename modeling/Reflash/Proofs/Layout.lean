import Reflash.Chip.EraseFunction
import Reflash.Proofs.Span

/-!
# Block layouts

The blocks of an erase function lie one behind the other, region after region. A
command of the function erases one of them.

* `mem_layout_iff`: the blocks of the layout, region by region.
* `blockSizeAt?_eq_some_iff`: the block size at an address is that of the block it is in.
* `exists_regionStart`: where the blocks of a region start.
* `EvenOver`: the blocks have one size, except for a rest that is smaller than one of them.
* `aligned_iff`: the blocks are aligned exactly if those at the start of each region are.
-/

namespace Reflash.EraseFunction

variable {f : EraseFunction} {rs : List Region} {r : Region} {t : Span} {a x k n : ℕ}

/-- The blocks of regions that start at address `a`. -/
def layoutFrom : ℕ → List Region → List Span
  | _, [] => []
  | a, r :: rs =>
    (List.range r.count).map (fun i => ⟨a + i * r.size, r.size⟩) ++ layoutFrom (a + r.total) rs

/-- The blocks of the function in the order of their addresses. -/
def layout (f : EraseFunction) : List Span := layoutFrom 0 f.regions

/-- The bytes of the regions in front of number `k`, behind which its blocks lie. -/
def regionStart (f : EraseFunction) (k : ℕ) : ℕ := ((f.regions.take k).map Region.total).sum

/-- Every block starts at a multiple of its size. -/
def Aligned (f : EraseFunction) : Prop := ∀ t ∈ f.layout, t.len ∣ t.start

instance (f : EraseFunction) : Decidable f.Aligned :=
  inferInstanceAs (Decidable (∀ t ∈ f.layout, t.len ∣ t.start))

/-- On `n` bytes, the function has blocks of the size of its first ones wherever such a block
fits. -/
def EvenOver (f : EraseFunction) (n : ℕ) : Prop :=
  ∃ first, f.regions.head? = some first ∧
    ∀ j, (j + 1) * first.size ≤ n → ⟨j * first.size, first.size⟩ ∈ f.layout

/-- **The blocks of a layout** are the blocks of its regions. -/
theorem mem_layout_iff : t ∈ f.layout ↔ ∃ k r, f.regions[k]? = some r ∧
    ∃ i < r.count, t = ⟨f.regionStart k + i * r.size, r.size⟩ := by
  have hfrom : ∀ (rs : List Region) (a : ℕ), t ∈ layoutFrom a rs ↔ ∃ k r, rs[k]? = some r ∧
      ∃ i < r.count, t = ⟨a + ((rs.take k).map Region.total).sum + i * r.size, r.size⟩ := by
    intro rs
    induction rs with
    | nil => intro a; simp [layoutFrom]
    | cons q rs ih =>
      intro a
      rw [layoutFrom, List.mem_append, List.mem_map, ih]
      constructor
      · rintro (⟨i, hi, rfl⟩ | ⟨k, r, hr, i, hi, rfl⟩)
        · exact ⟨0, q, rfl, i, List.mem_range.1 hi, by simp⟩
        · exact ⟨k + 1, r, hr, i, hi, by simp [Nat.add_assoc]⟩
      · rintro ⟨k, r, hr, i, hi, rfl⟩
        cases k with
        | zero =>
          left
          obtain rfl : q = r := Option.some.inj hr
          exact ⟨i, List.mem_range.2 hi, by simp⟩
        | succ k => exact .inr ⟨k, r, hr, i, hi, by simp [Nat.add_assoc]⟩
  simpa [layout, regionStart] using hfrom f.regions 0

/-- No block reaches behind the last region. -/
theorem stop_le_total (ht : t ∈ f.layout) : t.stop ≤ f.total := by
  have hfrom : ∀ (rs : List Region) (a : ℕ), t ∈ layoutFrom a rs →
      t.stop ≤ a + rs.foldr (fun r n => r.total + n) 0 := by
    intro rs
    induction rs with
    | nil => intro a h; cases h
    | cons q rs ih =>
      intro a h
      rw [List.foldr_cons]
      rcases List.mem_append.1 h with h | h
      · obtain ⟨i, hi, rfl⟩ := List.mem_map.1 h
        have hlast : (i + 1) * q.size ≤ q.count * q.size :=
          Nat.mul_le_mul_right _ (List.mem_range.1 hi)
        have htotal : q.total = q.count * q.size := Nat.mul_comm _ _
        rw [Nat.succ_mul] at hlast
        simp only [Span.stop]
        omega
      · have hrest := ih _ h
        omega
  have hall := hfrom f.regions 0 ht
  rwa [Nat.zero_add] at hall

theorem blockSizeIn?_of_mem (ht : t ∈ layoutFrom a rs) (hx : x ∈ t) :
    a ≤ x ∧ blockSizeIn? rs (x - a) = some t.len := by
  induction rs generalizing a with
  | nil => cases ht
  | cons r rs ih =>
    obtain ⟨h1, h2⟩ := hx
    unfold blockSizeIn?
    rcases List.mem_append.1 ht with ht | ht
    · obtain ⟨i, hi, rfl⟩ := List.mem_map.1 ht
      rw [List.mem_range] at hi
      have hlast : (i + 1) * r.size ≤ r.count * r.size := Nat.mul_le_mul_right _ hi
      rw [Nat.succ_mul] at hlast
      dsimp only at h1 h2
      have htotal : r.total = r.count * r.size := Nat.mul_comm _ _
      rw [if_pos (by omega)]
      exact ⟨by omega, rfl⟩
    · -- the block is one of the regions behind
      obtain ⟨hle, hsize⟩ := ih ht
      rw [if_neg (by omega), Nat.sub_sub]
      exact ⟨by omega, hsize⟩

/-- **The block of an address** is the one that the address is in. -/
theorem blockSizeAt?_of_mem (ht : t ∈ f.layout) (hx : x ∈ t) : f.blockSizeAt? x = some t.len :=
  (blockSizeIn?_of_mem ht hx).2

/-- **The block size at an address** is that of the block which the address is in. -/
theorem blockSizeAt?_eq_some_iff : f.blockSizeAt? x = some n ↔ ∃ t ∈ f.layout, x ∈ t ∧ t.len = n := by
  have hfrom : ∀ (rs : List Region) (a : ℕ), a ≤ x → blockSizeIn? rs (x - a) = some n →
      ∃ t ∈ layoutFrom a rs, x ∈ t ∧ t.len = n := by
    intro rs
    induction rs with
    | nil => intro a _ h; cases h
    | cons r rs ih =>
      intro a ha h
      unfold blockSizeIn? at h
      unfold layoutFrom
      split at h
      · -- the address is in the region, in the block that a division finds
        rename_i hin
        have hsize : 0 < r.size := Nat.pos_of_ne_zero fun h0 => by simp [Region.total, h0] at hin
        have hdiv := Nat.div_add_mod (x - a) r.size
        have hmod := Nat.mod_lt (x - a) hsize
        have hcount : (x - a) / r.size < r.count := Nat.div_lt_of_lt_mul hin
        rw [Nat.mul_comm] at hdiv
        refine ⟨⟨a + (x - a) / r.size * r.size, r.size⟩, List.mem_append_left _ ?_, ?_,
          Option.some.inj h⟩
        · exact List.mem_map.2 ⟨_, List.mem_range.2 hcount, rfl⟩
        · rw [Span.mem_def]
          dsimp only
          omega
      · have hrest : blockSizeIn? rs (x - (a + r.total)) = some n := by rwa [← Nat.sub_sub]
        obtain ⟨t, ht, hx, hlen⟩ := ih (a + r.total) (by omega) hrest
        exact ⟨t, List.mem_append_right _ ht, hx, hlen⟩
  constructor
  · exact hfrom f.regions 0 (Nat.zero_le x)
  · rintro ⟨t, ht, hx, rfl⟩
    exact blockSizeAt?_of_mem ht hx

/-- The block of an address is one of some region. -/
theorem exists_region_of_blockSizeAt? (h : f.blockSizeAt? x = some n) :
    ∃ r ∈ f.regions, r.size = n := by
  obtain ⟨t, ht, -, rfl⟩ := blockSizeAt?_eq_some_iff.1 h
  obtain ⟨k, r, hr, -, -, rfl⟩ := mem_layout_iff.1 ht
  exact ⟨r, List.mem_of_getElem? hr, rfl⟩

theorem blockSizeAt?_zero (hr : f.regions.head? = some r) (hpos : 0 < r.total) :
    f.blockSizeAt? 0 = some r.size := by
  obtain ⟨rest, hregions⟩ := List.head?_eq_some_iff.1 hr
  unfold blockSizeAt?
  rw [hregions, blockSizeIn?, if_pos hpos]

theorem exists_regionStart (hr : f.regions[k]? = some r) (hpos : 0 < r.total) :
    ∃ o, o + r.total ≤ f.total ∧ f.blockSizeAt? o = some r.size := by
  have hfrom : ∀ (rs : List Region) (k : ℕ), rs[k]? = some r → ∃ o,
      o + r.total ≤ rs.foldr (fun r n => r.total + n) 0 ∧ blockSizeIn? rs o = some r.size := by
    intro rs
    induction rs with
    | nil => intro k h; cases h
    | cons q rs ih =>
      intro k h
      rw [List.foldr_cons]
      unfold blockSizeIn?
      cases k with
      | zero =>
        cases h
        exact ⟨0, by omega, if_pos hpos⟩
      | succ k =>
        obtain ⟨o, hle, hsize⟩ := ih k h
        refine ⟨q.total + o, by omega, ?_⟩
        rw [if_neg (by omega), Nat.add_sub_cancel_left]
        exact hsize
  exact hfrom f.regions k hr

/-- **Blocks are aligned** exactly if every region with blocks starts at a multiple of their size. -/
theorem aligned_iff : f.Aligned ↔
    ∀ k r, f.regions[k]? = some r → 0 < r.count → r.size ∣ f.regionStart k := by
  constructor
  · intro h k r hr hcount
    have hfirst := h _ (mem_layout_iff.2 ⟨k, r, hr, 0, hcount, rfl⟩)
    simpa using hfirst
  · intro h t ht
    obtain ⟨k, r, hr, i, hi, rfl⟩ := mem_layout_iff.1 ht
    exact (h k r hr (by omega)).add (Nat.dvd_mul_left r.size i)

/-- In an aligned layout, an address that is a multiple of the size of its block is where the block
starts. -/
theorem Aligned.start_eq (h : f.Aligned) (ht : t ∈ f.layout) (hx : x ∈ t) (hdvd : t.len ∣ x) :
    t.start = x := by
  have hmem := Span.mem_def.1 hx
  -- both are multiples of the size, and less than it apart
  have hdiff : t.len ∣ x - t.start := Nat.dvd_sub hdvd (h t ht)
  have hzero := Nat.eq_zero_of_dvd_of_lt hdiff (by omega)
  omega

/-- No region covers more than all regions together. -/
theorem total_le (hr : r ∈ f.regions) : r.total ≤ f.total := by
  obtain ⟨k, hk⟩ := List.mem_iff_getElem?.1 hr
  rcases Nat.eq_zero_or_pos r.total with h | h
  · omega
  · obtain ⟨o, ho, -⟩ := exists_regionStart hk h
    omega

/-- **A region with as many bytes as the first block** has the blocks of an even function, because
one of these reaches into it. -/
theorem EvenOver.size_eq {first : Region} (h : f.EvenOver n) (hn : f.total ≤ n)
    (hfirst : f.regions.head? = some first) (hsize : 0 < first.size)
    (hr : f.regions[k]? = some r) (hle : first.size ≤ r.total) : r.size = first.size := by
  obtain ⟨first', hfirst', heven⟩ := h
  obtain rfl : first = first' := Option.some.inj (hfirst.symm.trans hfirst')
  obtain ⟨o, ho, hat⟩ := exists_regionStart hr (by omega)
  have hdiv := Nat.div_add_mod o first.size
  have hmod := Nat.mod_lt o hsize
  rw [Nat.mul_comm] at hdiv
  have hmem := heven (o / first.size) (by rw [Nat.succ_mul]; omega)
  have hin : o ∈ (⟨o / first.size * first.size, first.size⟩ : Span) := by
    rw [Span.mem_def]
    dsimp only
    omega
  have hblock := blockSizeAt?_of_mem hmem hin
  rw [hat] at hblock
  exact Option.some.inj hblock

end Reflash.EraseFunction
