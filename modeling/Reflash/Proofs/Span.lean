import Mathlib
import Reflash.Span

/-!
# Searching and cutting spans

* `find?_eq_none_iff`: a search fails if no address passes the test.
* `find?_eq_addresses`, `count_eq_addresses`: searching and counting, on the list of addresses.
* `tiles_pieces`: the pieces of a span lie side by side from its start to its end.
* `Tiles.addresses`: spans that lie side by side have their addresses in ascending order.
-/

namespace Reflash.Span

variable {s : Span} {p : ℕ → Bool} {i n : ℕ}

/-- Every address of `s` is one of `t`. -/
def Within (s t : Span) : Prop := ∀ a ∈ s, a ∈ t

theorem not_of_any (h : s.any p = false) (hi : i ∈ s) : p i = false := by
  rw [Bool.eq_false_iff] at h ⊢
  exact fun hp => h (any_iff.2 ⟨i, hi, hp⟩)

theorem findFrom_eq_none_iff {a : ℕ} :
    findFrom p a n = none ↔ ∀ i, a ≤ i → i < a + n → p i = false := by
  induction n generalizing a with
  | zero => exact ⟨fun _ i h1 h2 => by omega, fun _ => rfl⟩
  | succ n ih =>
    unfold findFrom
    cases ha : p a with
    | true =>
      rw [if_pos rfl]
      constructor
      · intro h
        cases h
      · intro h
        rw [h a (Nat.le_refl _) (by omega)] at ha
        cases ha
    | false =>
      rw [if_neg Bool.false_ne_true, ih]
      constructor
      · intro h i h1 h2
        rcases Nat.eq_or_lt_of_le h1 with rfl | h1
        · exact ha
        · exact h i h1 (by omega)
      · exact fun h i h1 h2 => h i (by omega) (by omega)

/-- A search fails exactly if no address of the span passes the test. -/
theorem find?_eq_none_iff : s.find? p = none ↔ ∀ i ∈ s, p i = false :=
  findFrom_eq_none_iff.trans ⟨fun h i hi => h i hi.1 hi.2, fun h i h1 h2 => h i ⟨h1, h2⟩⟩

/-- What a search from the end finds is in the span. -/
theorem findLast?_mem (h : s.findLast? p = some i) : i ∈ s := by
  have hfrom : ∀ n, findLastFrom p s.start n = some i → s.start ≤ i ∧ i < s.start + n := by
    -- by induction on how many addresses are left
    intro n
    induction n with
    | zero => intro h; cases h
    | succ n ih =>
      unfold findLastFrom
      intro h
      split at h
      · cases h; omega
      · have := ih h; omega
  exact hfrom s.len h

/-- A search from the end stops at or behind every address that passes the test. -/
theorem le_findLast? (hi : i ∈ s) (hp : p i = true) : ∃ j, s.findLast? p = some j ∧ i ≤ j := by
  have hfrom : ∀ n, s.start ≤ i → i < s.start + n →
      ∃ j, findLastFrom p s.start n = some j ∧ i ≤ j := by
    intro n
    induction n with
    | zero => intro _ h; omega
    | succ n ih =>
      intro h1 h2
      unfold findLastFrom
      split
      · exact ⟨_, rfl, by omega⟩
      · rename_i hn
        -- the last address fails the test, so it is not `i`
        rcases Nat.lt_succ_iff_lt_or_eq.1 h2 with h2 | rfl
        · exact ih h1 h2
        · exact absurd hp hn
  exact hfrom s.len hi.1 hi.2

/-- The spans lie side by side from `a` to `b`. -/
def Tiles : List Span → ℕ → ℕ → Prop
  | [], a, b => a = b
  | t :: ts, a, b => t.start = a ∧ Tiles ts t.stop b

theorem Tiles.le {ts : List Span} {a b : ℕ} (h : Tiles ts a b) : a ≤ b := by
  induction ts generalizing a with
  | nil => exact Nat.le_of_eq h
  | cons t ts ih =>
    obtain ⟨rfl, h⟩ := h
    exact (Nat.le_add_right _ _).trans (ih h)

/-- Some of the spans lie side by side up to a point, and the others from there on. -/
theorem tiles_append {ts us : List Span} {a b : ℕ} :
    Tiles (ts ++ us) a b ↔ ∃ c, Tiles ts a c ∧ Tiles us c b := by
  induction ts generalizing a with
  | nil => exact ⟨fun h => ⟨a, rfl, h⟩, fun ⟨_, h, h'⟩ => h ▸ h'⟩
  | cons t ts ih =>
    constructor
    · rintro ⟨hstart, h⟩
      obtain ⟨c, hts, hus⟩ := ih.1 h
      exact ⟨c, ⟨hstart, hts⟩, hus⟩
    · rintro ⟨c, ⟨hstart, hts⟩, hus⟩
      exact ⟨hstart, ih.2 ⟨c, hts, hus⟩⟩

/-- Spans that are not empty get somewhere. -/
theorem Tiles.lt {ts : List Span} {a b : ℕ} (h : Tiles ts a b) (hne : ts ≠ [])
    (hpos : ∀ t ∈ ts, 0 < t.len) : a < b := by
  cases ts with
  | nil => exact absurd rfl hne
  | cons t ts =>
    obtain ⟨rfl, hrest⟩ := h
    have hle : t.start + t.len ≤ b := hrest.le
    have hlen := hpos t List.mem_cons_self
    omega

/-- **The ends of spans side by side** ascend to the last one, by the length of a span each time. -/
theorem Tiles.stops {ts : List Span} {a b size : ℕ} (h : Tiles ts a b)
    (hlen : ∀ t ∈ ts, 0 < t.len ∧ t.len ≤ size) :
    (a :: ts.map stop).IsChain (fun m n => m < n ∧ n ≤ m + size) ∧
      (ts.map stop).getLastD a = b := by
  induction ts generalizing a with
  | nil => exact ⟨.singleton a, h⟩
  | cons t ts ih =>
    obtain ⟨rfl, hrest⟩ := h
    obtain ⟨hfirst, hlen⟩ := List.forall_mem_cons.1 hlen
    obtain ⟨hchain, hlast⟩ := ih hrest hlen
    have hstep : t.start < t.stop ∧ t.stop ≤ t.start + size := by
      unfold stop
      omega
    refine ⟨.cons_cons hstep hchain, ?_⟩
    rw [List.map_cons, List.getLastD_cons]
    exact hlast

/-- There are no more pieces than needed. -/
theorem mul_lt_of_lt_count {len size k : ℕ} (hk : k < (len + size - 1) / size) :
    k * size < len := by
  have hpos : 0 < size := Nat.pos_of_ne_zero fun h => by rw [h, Nat.div_zero] at hk; omega
  have := (Nat.le_div_iff_mul_le hpos).1 hk
  rw [Nat.succ_mul] at this
  omega

/-- **The pieces of a span** lie side by side from its start to its end. -/
theorem tiles_pieces {size : ℕ} (h : 0 < size) : Tiles (s.pieces size) s.start s.stop := by
  -- the pieces from number `i` on, of which there are `k`
  have hfrom : ∀ k i, i + k = (s.len + size - 1) / size →
      Tiles ((List.range' i k).map fun k => ⟨s.start + k * size, min size (s.len - k * size)⟩)
        (s.start + min (i * size) s.len) s.stop := by
    intro k
    induction k with
    | zero =>
      intro i hi
      have := Nat.lt_mul_div_succ (s.len + size - 1) h
      rw [← hi, Nat.add_zero, Nat.mul_succ, Nat.mul_comm] at this
      show _ = s.start + s.len
      omega
    | succ k ih =>
      intro i hi
      have hlt : i * size < s.len := mul_lt_of_lt_count (by omega)
      rw [List.range'_succ, List.map_cons]
      refine ⟨by dsimp only; omega, ?_⟩
      have hstop : stop ⟨s.start + i * size, min size (s.len - i * size)⟩ =
          s.start + min ((i + 1) * size) s.len := by
        rw [Nat.succ_mul]
        unfold stop
        dsimp only
        omega
      rw [hstop]
      exact ih (i + 1) (by omega)
  have := hfrom _ 0 (Nat.zero_add _)
  rwa [Nat.zero_mul, Nat.zero_min, Nat.add_zero, ← List.range_eq_range'] at this

/-! ## Lists of addresses -/

/-- The addresses of the span in ascending order. -/
def addresses (s : Span) : List ℕ := List.range' s.start s.len

theorem mem_addresses : i ∈ s.addresses ↔ i ∈ s := List.mem_range'_1

/-- A search finds the first address in the list that passes the test. -/
theorem find?_eq_addresses : s.find? p = s.addresses.find? p := by
  have hfrom : ∀ n a, findFrom p a n = (List.range' a n).find? p := by
    intro n
    induction n with
    | zero => intro a; rfl
    | succ n ih =>
      intro a
      rw [findFrom, List.range'_succ, List.find?_cons, ih]
      cases p a <;> rfl
  exact hfrom s.len s.start

/-- Counting goes over the whole list. -/
theorem count_eq_addresses : s.count p = s.addresses.countP p := by
  have hfrom : ∀ n a acc, countFrom p a n acc = acc + (List.range' a n).countP p := by
    intro n
    induction n with
    | zero => intro a acc; rfl
    | succ n ih =>
      intro a acc
      rw [countFrom, List.range'_succ, List.countP_cons, ih]
      split <;> omega
  exact (hfrom s.len s.start 0).trans (Nat.zero_add _)

/-- **Spans that lie side by side** have their addresses in ascending order, without a gap. -/
theorem Tiles.addresses {ts : List Span} {a b : ℕ} (h : Tiles ts a b) :
    ts.flatMap Span.addresses = List.range' a (b - a) := by
  induction ts generalizing a with
  | nil =>
    obtain rfl : a = b := h
    simp
  | cons t ts ih =>
    obtain ⟨rfl, h⟩ := h
    have hle : t.start + t.len ≤ b := h.le
    have hrest : b - t.start = t.len + (b - t.stop) := by unfold stop; omega
    rw [List.flatMap_cons, ih h, hrest, ← List.range'_append_1]
    rfl

/-- The span moved up by `n` addresses. -/
def shift (n : ℕ) (s : Span) : Span := ⟨n + s.start, s.len⟩

theorem addresses_shift : (s.shift n).addresses = s.addresses.map (n + ·) :=
  (List.map_add_range' s.start s.len 1).symm

/-- Cutting a span that is moved up cuts it at the same places. -/
theorem pieces_shift {len size : ℕ} :
    pieces ⟨n, len⟩ size = (pieces ⟨0, len⟩ size).map (shift n) := by
  unfold pieces
  rw [List.map_map]
  refine List.map_congr_left fun k _ => ?_
  simp [shift]

theorem pieces_of_len_eq_zero (h : s.len = 0) (size : ℕ) : s.pieces size = [] := by
  refine List.eq_nil_iff_forall_not_mem.2 fun t ht => ?_
  obtain ⟨k, hk, -⟩ := List.mem_map.1 ht
  have := mul_lt_of_lt_count (List.mem_range.1 hk)
  omega

/-- The pieces of a span that starts at zero start at multiples of their size. -/
theorem pieces_aligned {len size : ℕ} {t : Span} (ht : t ∈ pieces ⟨0, len⟩ size) :
    size ∣ t.start ∧ t.len ≤ size := by
  obtain ⟨k, -, rfl⟩ := List.mem_map.1 ht
  dsimp only
  rw [Nat.zero_add]
  exact ⟨Nat.dvd_mul_left size k, Nat.min_le_left _ _⟩

/-- No piece is empty or too long. -/
theorem len_of_mem_pieces {size : ℕ} {t : Span} (h : 0 < size) (ht : t ∈ s.pieces size) :
    0 < t.len ∧ t.len ≤ size := by
  obtain ⟨k, hk, rfl⟩ := List.mem_map.1 ht
  have hlt := mul_lt_of_lt_count (List.mem_range.1 hk)
  dsimp only
  omega

theorem pieces_inside {size : ℕ} {t : Span} (ht : t ∈ s.pieces size) :
    s.start ≤ t.start ∧ t.start + t.len ≤ s.start + s.len := by
  obtain ⟨k, hk, rfl⟩ := List.mem_map.1 ht
  have := mul_lt_of_lt_count (List.mem_range.1 hk)
  dsimp only
  omega

end Reflash.Span
