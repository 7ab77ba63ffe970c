import Reflash.Proofs.Image
import Reflash.Proofs.Span
import Reflash.Verification

/-!
# Comparing a memory with what is expected

Of the addresses at which a memory is not as expected, a mismatch names the lowest one and
says how many there are. Pieces are compared one after the other, and what is found in each
of them adds up to what is found in all of them.

* `find?_slices`: comparing the bytes of one piece.
* `combine_report?`: adding what is found in one more piece.
* `settles_report?`: what the report of the addresses found says about the pieces compared.
-/

namespace Reflash

/-- A memory, and what is expected in it from address `start` on. -/
structure Expectation where
  memory : Image
  want : Image
  start : ℕ

/-- The result of a verification that finds this. -/
def Mismatch.verdict : Option Mismatch → Except FlashError Unit
  | none => .ok ()
  | some m => .error (.verifyFailed m)

namespace Expectation

variable {c : Expectation} {p t : Span} {ts counted : List Span} {as bs : List ℕ} {a : ℕ}
  {m : Mismatch}

/-- At this address the memory does not hold what is expected there. -/
def differsAt (c : Expectation) (a : ℕ) : Bool := c.want.byte (a - c.start) != c.memory.byte a

theorem differsAt_eq_false : c.differsAt a = false ↔
    c.want.byte (a - c.start) = c.memory.byte a := by
  simp [differsAt]

/-- Somewhere in the span the memory is not as expected. -/
def differs (c : Expectation) (t : Span) : Bool := t.any c.differsAt

/-- The addresses in these spans, in their order, at which the memory is not as expected. -/
def differing (c : Expectation) (ts : List Span) : List ℕ :=
  (ts.flatMap Span.addresses).filter c.differsAt

/-- What is reported of these addresses: the first one with the bytes there, and their number. -/
def report? (c : Expectation) (as : List ℕ) : Option Mismatch :=
  as.head?.map fun a => ⟨a, c.want.byte (a - c.start), c.memory.byte a, as.length⟩

theorem mem_differing : a ∈ c.differing ts ↔ (∃ t ∈ ts, a ∈ t) ∧ c.differsAt a = true := by
  simp [differing, Span.mem_addresses]

theorem differing_cons : c.differing (t :: ts) = c.differing [t] ++ c.differing ts := by
  simp [differing]

theorem differs_eq_false : c.differs t = false ↔ c.differing [t] = [] := by
  rw [Bool.eq_false_iff, List.eq_nil_iff_forall_not_mem, differs, ne_eq, Span.any_iff]
  simp [mem_differing]

theorem report?_nil : c.report? [] = none := rfl

theorem report?_eq_none_iff : c.report? as = none ↔ as = [] := by
  cases as <;> simp [report?]

/-! ## Piece by piece -/

/-- **Comparing the bytes of a piece** reports the addresses in it that differ. -/
theorem find?_slices (hp : p.start + p.len ≤ c.want.size)
    (hin : c.start + c.want.size ≤ c.memory.size) :
    Mismatch.find? (Image.slice c.want p) (Image.slice c.memory (p.shift c.start))
      (c.start + p.start) = c.report? (c.differing [p.shift c.start]) := by
  have hwant : (Image.slice c.want p).size = p.len := Image.size_slice hp
  have hmem : (Image.slice c.memory (p.shift c.start)).size = p.len :=
    Image.size_slice (by simp only [Span.shift]; omega)
  -- the bytes of the slices are those of the memory and of what is expected, further up
  have hbyte : ∀ i ∈ (Span.mk 0 p.len).addresses,
      (Image.slice c.want p).byte i = c.want.byte (c.start + p.start + i - c.start) ∧
      (Image.slice c.memory (p.shift c.start)).byte i = c.memory.byte (c.start + p.start + i) := by
    intro i hi
    have hlt := (Span.mem_addresses.1 hi).2
    dsimp only at hlt
    rw [Image.byte_slice (by omega), Image.byte_slice (by simp only [Span.shift]; omega)]
    refine ⟨congrArg c.want.byte (by omega), rfl⟩
  have hdiffer : ∀ i ∈ (Span.mk 0 p.len).addresses,
      Image.differsAt (Image.slice c.want p) (Image.slice c.memory (p.shift c.start)) i =
        c.differsAt (c.start + p.start + i) := by
    intro i hi
    rw [Image.differsAt, differsAt, (hbyte i hi).1, (hbyte i hi).2]
  have haddresses : (p.shift c.start).addresses =
      (Span.mk 0 p.len).addresses.map (c.start + p.start + ·) :=
    Span.addresses_shift (n := c.start + p.start) (s := ⟨0, p.len⟩)
  have hdiffering : c.differing [p.shift c.start] =
      ((Span.mk 0 p.len).addresses.filter fun i => c.differsAt (c.start + p.start + i)).map
        (c.start + p.start + ·) := by
    rw [differing, List.flatMap_singleton, haddresses, List.filter_map]
    rfl
  rw [hdiffering, report?, List.head?_map, List.head?_filter, List.length_map,
    ← List.countP_eq_length_filter, Option.map_map, Mismatch.find?, Image.countDiffering,
    Image.shared, hwant, hmem, Nat.min_self, Span.find?_eq_addresses, Span.count_eq_addresses,
    List.countP_congr fun i hi => by rw [hdiffer i hi], List.find?_congr hdiffer]
  -- a byte that is found is one of the slices
  cases hfind : (Span.mk 0 p.len).addresses.find? fun i =>
      c.differsAt (c.start + p.start + i) with
  | none => rfl
  | some i =>
    have hi := hbyte i (List.mem_of_find?_eq_some hfind)
    simp only [Option.map_some, Function.comp, hi]

/-- **What is found in one more piece** adds to what was found before. -/
theorem combine_report? (h : c.report? bs = some m) :
    some (Mismatch.combine (c.report? as) m) = c.report? (as ++ bs) := by
  cases as with
  | nil => exact h.symm
  | cons a as =>
    cases bs with
    | nil => cases h
    | cons b bs =>
      cases h
      simp [report?, Mismatch.combine]
      omega

/-! ## What is reported -/

/-- The mismatch is about the lowest address in the spans `ts` at which the memory is not as
expected, and counts such addresses in the spans `counted`. -/
structure Reports (c : Expectation) (ts counted : List Span) (m : Mismatch) : Prop where
  inside : ∃ t ∈ ts, m.address ∈ t
  differs : c.want.byte (m.address - c.start) ≠ c.memory.byte m.address
  lowest : ∀ t ∈ ts, ∀ a ∈ t, c.want.byte (a - c.start) ≠ c.memory.byte a → m.address ≤ a
  expected : m.expected = c.want.byte (m.address - c.start)
  found : m.found = c.memory.byte m.address
  failCount : m.failCount = (c.differing counted).length

/-- The result says that the spans `ts` are as expected exactly if they are, and otherwise reports a
mismatch in them. -/
structure Settles (c : Expectation) (ts counted : List Span) (r : Except FlashError Unit) :
    Prop where
  ok_iff : r = .ok () ↔ ∀ t ∈ ts, ∀ a ∈ t, c.want.byte (a - c.start) = c.memory.byte a
  mismatch : r ≠ .ok () → ∃ m, r = .error (.verifyFailed m) ∧ c.Reports ts counted m

/-- No address differs exactly if all is as expected. -/
theorem differing_eq_nil_iff : c.differing ts = [] ↔
    ∀ t ∈ ts, ∀ a ∈ t, c.want.byte (a - c.start) = c.memory.byte a := by
  rw [List.eq_nil_iff_forall_not_mem]
  constructor
  · intro h t ht a ha
    by_contra hne
    refine h a (mem_differing.2 ⟨⟨t, ht, ha⟩, ?_⟩)
    simpa [differsAt] using hne
  · intro h a ha
    obtain ⟨⟨t, ht, hat⟩, hne⟩ := mem_differing.1 ha
    rw [differsAt_eq_false.2 (h t ht a hat)] at hne
    cases hne

/-- Of the spans that are compared, the first one that differs has the first address that does. -/
theorem head?_differing_find? :
    (c.differing (ts.find? c.differs).toList).head? = (c.differing ts).head? := by
  induction ts with
  | nil => rfl
  | cons t ts ih =>
    rw [differing_cons, List.find?_cons]
    cases ht : c.differs t with
    | false => rw [differs_eq_false.1 ht, List.nil_append, ih]
    | true =>
      have hne : c.differing [t] ≠ [] := by
        intro h
        rw [differs_eq_false.2 h] at ht
        cases ht
      rw [List.head?_append_of_ne_nil _ hne]
      rfl

/-- **The report of the addresses that differ** settles the comparison of spans whose addresses
ascend, if the counted spans have the first of these addresses. -/
theorem settles_report? (hascend : (ts.flatMap Span.addresses).Pairwise (· < ·))
    (hhead : (c.differing counted).head? = (c.differing ts).head?) :
    c.Settles ts counted (Mismatch.verdict (c.report? (c.differing counted))) := by
  cases hts : c.differing ts with
  | nil =>
    have hnone : c.report? (c.differing counted) = none := by
      rw [report?, hhead, hts]
      rfl
    rw [hnone]
    exact ⟨iff_of_true rfl (differing_eq_nil_iff.1 hts), fun h => absurd rfl h⟩
  | cons a as =>
    have hsome : c.report? (c.differing counted) = some
        ⟨a, c.want.byte (a - c.start), c.memory.byte a, (c.differing counted).length⟩ := by
      rw [report?, hhead, hts]
      rfl
    have hmem : a ∈ c.differing ts := hts ▸ List.mem_cons_self
    obtain ⟨hin, hdiffers⟩ := mem_differing.1 hmem
    have hne : c.want.byte (a - c.start) ≠ c.memory.byte a := by
      simpa [differsAt] using hdiffers
    have hleast : ∀ b ∈ c.differing ts, a ≤ b := by
      intro b hb
      have hsorted : (a :: as).Pairwise (· < ·) := hts ▸ hascend.sublist List.filter_sublist
      rcases List.mem_cons.1 (hts ▸ hb) with rfl | hb
      · exact Nat.le_refl _
      · exact Nat.le_of_lt ((List.pairwise_cons.1 hsorted).1 b hb)
    rw [hsome]
    refine ⟨iff_of_false nofun fun hall => ?_, fun _ => ⟨_, rfl, hin, hne, ?_, rfl, rfl, rfl⟩⟩
    · rw [differing_eq_nil_iff.2 hall] at hts
      cases hts
    · intro t ht b hb hbne
      refine hleast b (mem_differing.2 ⟨⟨t, ht, hb⟩, ?_⟩)
      simpa [differsAt] using hbne

end Expectation

end Reflash
