/-!
# Spans of addresses

A `Span` is a run of consecutive addresses. Comparing images, cutting them into
chunks and looking for the bytes that decide something all range over spans.

* `any_iff`: `any` finds an address exactly if one in the span satisfies the test.
* `mem_pieces`: cutting a span into pieces loses and repeats nothing of it.
-/

namespace Reflash

/-- The `len` addresses from `start` on. -/
structure Span where
  start : Nat
  len : Nat
deriving DecidableEq, Repr, Inhabited

namespace Span

/-- The first address behind the span. -/
def stop (s : Span) : Nat := s.start + s.len

instance : Membership Nat Span := ⟨fun s a => s.start ≤ a ∧ a < s.start + s.len⟩

theorem mem_def {a : Nat} {s : Span} : a ∈ s ↔ s.start ≤ a ∧ a < s.start + s.len := Iff.rfl

instance (a : Nat) (s : Span) : Decidable (a ∈ s) :=
  inferInstanceAs (Decidable (s.start ≤ a ∧ a < s.start + s.len))

/-- Whether one of the `n` addresses from `a` on satisfies `p`. -/
@[specialize] def anyFrom (p : Nat → Bool) : Nat → Nat → Bool
  | _, 0 => false
  | a, n + 1 => p a || anyFrom p (a + 1) n

/-- The lowest of the `n` addresses from `a` on that satisfies `p`. -/
@[specialize] def findFrom (p : Nat → Bool) : Nat → Nat → Option Nat
  | _, 0 => none
  | a, n + 1 => if p a then some a else findFrom p (a + 1) n

/-- The highest of the `n` addresses from `a` on that satisfies `p`. -/
@[specialize] def findLastFrom (p : Nat → Bool) (a : Nat) : Nat → Option Nat
  | 0 => none
  | n + 1 => if p (a + n) then some (a + n) else findLastFrom p a n

/-- Adds to `acc` how many of the `n` addresses from `a` on satisfy `p`. -/
@[specialize] def countFrom (p : Nat → Bool) : Nat → Nat → Nat → Nat
  | _, 0, acc => acc
  | a, n + 1, acc => countFrom p (a + 1) n (if p a then acc + 1 else acc)

/-- Whether some address of the span satisfies `p`. -/
@[inline] def any (s : Span) (p : Nat → Bool) : Bool := anyFrom p s.start s.len

/-- The lowest address of the span that satisfies `p`. -/
@[inline] def find? (s : Span) (p : Nat → Bool) : Option Nat := findFrom p s.start s.len

/-- The highest address of the span that satisfies `p`. -/
@[inline] def findLast? (s : Span) (p : Nat → Bool) : Option Nat := findLastFrom p s.start s.len

/-- How many addresses of the span satisfy `p`. -/
@[inline] def count (s : Span) (p : Nat → Bool) : Nat := countFrom p s.start s.len 0

/-- The span cut into pieces of `size` addresses, the last one possibly shorter. -/
def pieces (s : Span) (size : Nat) : List Span :=
  (List.range ((s.len + size - 1) / size)).map fun k =>
    ⟨s.start + k * size, min size (s.len - k * size)⟩

theorem anyFrom_iff {p : Nat → Bool} {a n : Nat} :
    anyFrom p a n = true ↔ ∃ i, a ≤ i ∧ i < a + n ∧ p i = true := by
  induction n generalizing a with
  | zero => simp [anyFrom]; omega
  | succ n ih =>
    simp only [anyFrom, Bool.or_eq_true, ih]
    constructor
    · rintro (h | ⟨i, h1, h2, h⟩)
      · exact ⟨a, by omega, by omega, h⟩
      · exact ⟨i, by omega, by omega, h⟩
    · rintro ⟨i, h1, h2, h⟩
      by_cases hi : i = a
      · exact .inl (hi ▸ h)
      · exact .inr ⟨i, by omega, by omega, h⟩

/-- `any` finds an address exactly if one in the span satisfies the test. -/
theorem any_iff {s : Span} {p : Nat → Bool} : s.any p = true ↔ ∃ i ∈ s, p i = true := by
  simp only [any, anyFrom_iff, mem_def]
  exact ⟨fun ⟨i, h1, h2, h⟩ => ⟨i, ⟨h1, h2⟩, h⟩, fun ⟨i, ⟨h1, h2⟩, h⟩ => ⟨i, h1, h2, h⟩⟩

/-- The pieces of a span hold exactly the addresses of the span. -/
theorem mem_pieces {s : Span} {size a : Nat} (h : 0 < size) :
    (∃ p ∈ s.pieces size, a ∈ p) ↔ a ∈ s := by
  simp only [pieces, List.mem_map, List.mem_range, mem_def]
  constructor
  · rintro ⟨_, ⟨k, -, rfl⟩, h1, h2⟩
    simp only at h1 h2
    omega
  · rintro ⟨h1, h2⟩
    have hd := Nat.div_add_mod (a - s.start) size
    have hm := Nat.mod_lt (a - s.start) h
    rw [Nat.mul_comm] at hd
    refine ⟨_, ⟨(a - s.start) / size, ?_, rfl⟩, ?_, ?_⟩
    · rw [Nat.lt_iff_add_one_le, Nat.le_div_iff_mul_le h, Nat.add_mul]
      omega
    · simp only; omega
    · simp only; omega

end Span

end Reflash
