/-!
# Address ranges

Ranges of addresses by their bounds, as they are given for protected parts of a chip.

* `meets_iff`: the test for a common address.
-/

namespace Reflash

/-- The addresses from `start` up to, but without, `stop`. -/
structure AddressRange where
  start : Nat
  stop : Nat
deriving DecidableEq, Repr, Inhabited

namespace AddressRange

instance : Membership Nat AddressRange := ⟨fun r a => r.start ≤ a ∧ a < r.stop⟩

instance (a : Nat) (r : AddressRange) : Decidable (a ∈ r) :=
  inferInstanceAs (Decidable (r.start ≤ a ∧ a < r.stop))

/-- The range reaches into the addresses from `a` up to `b`. -/
def meets (r : AddressRange) (a b : Nat) : Bool := a < r.stop && r.start < b

/-- A range reaches into some addresses exactly if it has one of them. -/
theorem meets_iff {r : AddressRange} {a b : Nat} (hr : r.start < r.stop) (hb : a < b) :
    r.meets a b = true ↔ ∃ i ∈ r, a ≤ i ∧ i < b := by
  simp only [meets, Bool.and_eq_true, decide_eq_true_eq]
  constructor
  · intro ⟨h1, h2⟩
    refine ⟨max a r.start, ⟨?_, ?_⟩, ?_, ?_⟩ <;> omega
  · rintro ⟨i, ⟨h1, h2⟩, h3, h4⟩
    omega

end AddressRange

end Reflash
