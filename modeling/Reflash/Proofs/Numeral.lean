import Mathlib
import Reflash.Text.Numeral

/-!
# Numerals

What a text of digits says, told without reading it from left to right, and how numbers are
written.

* `readDigits_eq_ok_iff`: digits are read exactly as far as their number stays within the limit.
* `readNumeral_eq_ok_iff`: a numeral is read with or without a sign.
* `numeral_spell`: the digits of a number, in either case and behind any number of zeros.
-/

namespace Reflash.Text

variable {radix limit n m d : ℕ} {c : Char} {cs : List Char}

/-- The character is the digit `d` of the radix, in lower or upper case. -/
def Digit (radix : ℕ) (c : Char) (d : ℕ) : Prop :=
  d < radix ∧ (c = d.digitChar ∨ c = d.digitChar.toUpper)

/-- The characters are digits of the radix, at least one, and together they say `n`. -/
def Numeral (radix : ℕ) (cs : List Char) (n : ℕ) : Prop :=
  cs ≠ [] ∧ ∃ ds, List.Forall₂ (Digit radix) cs ds ∧ Nat.ofDigits radix ds.reverse = n

/-- A numeral, in front of which a plus may stand if it may be signed. -/
def SignedNumeral (signed : Bool) (radix : ℕ) (cs : List Char) (n : ℕ) : Prop :=
  Numeral radix cs n ∨ signed = true ∧ ∃ digits, cs = '+' :: digits ∧ Numeral radix digits n

/-! ## Digits -/

theorem toNat_digitChar (hd : d < 16) :
    d.digitChar.toNat = if d < 10 then 48 + d else 87 + d := by
  have hall : ∀ x < 16, x.digitChar.toNat = if x < 10 then 48 + x else 87 + x := by decide
  exact hall d hd

theorem toNat_toUpper_digitChar (hd : d < 16) :
    d.digitChar.toUpper.toNat = if d < 10 then 48 + d else 55 + d := by
  have hall : ∀ x < 16, x.digitChar.toUpper.toNat = if x < 10 then 48 + x else 55 + x := by decide
  exact hall d hd

/-- The digits of a radix up to sixteen by their code points. -/
theorem digit_iff (hradix : radix ≤ 16) : Digit radix c d ↔ d < radix ∧
    (d < 10 ∧ c.toNat = 48 + d ∨ 10 ≤ d ∧ (c.toNat = 87 + d ∨ c.toNat = 55 + d)) := by
  refine and_congr_right fun hd => ?_
  rw [← Char.toNat_inj, ← Char.toNat_inj, toNat_digitChar (by omega),
    toNat_toUpper_digitChar (by omega)]
  split <;> omega

/-- **The value of a character** is that of the digit which it is. -/
theorem digitValue?_eq_some_iff (hradix : radix ≤ 16) :
    digitValue? radix c = some d ↔ Digit radix c d := by
  have hle : ∀ a b : Char, a ≤ b ↔ a.toNat ≤ b.toNat := fun _ _ => Iff.rfl
  have hsome : ∀ value, (if value < radix then some value else none) = some d ↔
      value < radix ∧ value = d := by
    intro value
    split <;> simp_all
  rw [digit_iff hradix]
  unfold digitValue?
  simp only [hle, hsome, show '0'.toNat = 48 from rfl, show '9'.toNat = 57 from rfl,
    show 'a'.toNat = 97 from rfl, show 'z'.toNat = 122 from rfl,
    show 'A'.toNat = 65 from rfl, show 'Z'.toNat = 90 from rfl]
  split_ifs <;> omega

theorem Digit.unique {d' : ℕ} (hradix : radix ≤ 16) (h : Digit radix c d)
    (h' : Digit radix c d') : d = d' := by
  rw [← digitValue?_eq_some_iff hradix] at h h'
  exact Option.some.inj (h.symm.trans h')

/-- A character that is no hexadecimal digit is no digit at all. -/
theorem Digit.ne {x : Char} (hradix : radix ≤ 16) (hx : digitValue? 16 x = none)
    (h : Digit radix c d) : c ≠ x := by
  rintro rfl
  have h16 : Digit 16 c d := ⟨h.1.trans_le hradix, h.2⟩
  rw [(digitValue?_eq_some_iff (Nat.le_refl 16)).2 h16] at hx
  cases hx

/-! ## Reading -/

/-- Appending digits makes no number smaller. -/
theorem le_foldl_digits (hpos : 0 < radix) (ds : List ℕ) (k : ℕ) :
    k ≤ ds.foldl (fun n d => d + radix * n) k := by
  induction ds generalizing k with
  | nil => exact Nat.le_refl k
  | cons d ds ih =>
    have hk : k ≤ radix * k := Nat.le_mul_of_pos_left k hpos
    have := ih (d + radix * k)
    rw [List.foldl_cons]
    omega

/-- **Digits are read** exactly if they are digits, and as far as their number stays within the
limit. -/
theorem readDigits_eq_ok_iff (hradix : radix ≤ 16) : readDigits radix limit cs m = .ok n ↔
    (∃ ds, List.Forall₂ (Digit radix) cs ds ∧ ds.foldl (fun n d => d + radix * n) m = n) ∧
      (cs ≠ [] → n ≤ limit) := by
  induction cs generalizing m with
  | nil => simp [readDigits]
  | cons c cs ih =>
    unfold readDigits
    cases hvalue : digitValue? radix c with
    | none =>
      refine iff_of_false nofun ?_
      rintro ⟨⟨_, hds, -⟩, -⟩
      cases hds with
      | cons hd _ =>
        rw [(digitValue?_eq_some_iff hradix).2 hd] at hvalue
        cases hvalue
    | some d =>
      have hd := (digitValue?_eq_some_iff hradix).1 hvalue
      have hnext : m * radix + d = d + radix * m := by rw [Nat.mul_comm, Nat.add_comm]
      dsimp only
      rw [hnext]
      constructor
      · intro h
        split at h
        · rename_i hfits
          obtain ⟨⟨ds, hds, hn⟩, hle⟩ := ih.1 h
          refine ⟨⟨d :: ds, .cons hd hds, hn⟩, fun _ => ?_⟩
          cases hds with
          | nil => exact hn ▸ hfits
          | cons _ _ => exact hle (List.cons_ne_nil _ _)
        · cases h
      · rintro ⟨⟨_, hds, hn⟩, hle⟩
        cases hds with
        | cons hd' hds =>
          obtain rfl := hd.unique hradix hd'
          have hn' := hle (List.cons_ne_nil _ _)
          -- what is read so far is not more than the whole number
          have hsofar := le_foldl_digits (Nat.zero_lt_of_lt hd.1) ‹_› (d + radix * m)
          rw [List.foldl_cons] at hn
          rw [if_pos (by omega)]
          exact ih.2 ⟨⟨_, hds, hn⟩, fun _ => hn'⟩

theorem ofDigits_reverse (radix : ℕ) (ds : List ℕ) :
    Nat.ofDigits radix ds.reverse = ds.foldl (fun n d => d + radix * n) 0 := by
  rw [Nat.ofDigits_eq_foldr, List.foldr_reverse]
  rfl

/-- Without a sign. -/
theorem readDigits_zero_iff (hradix : radix ≤ 16) (hcs : cs ≠ []) :
    readDigits radix limit cs 0 = .ok n ↔ Numeral radix cs n ∧ n ≤ limit := by
  rw [readDigits_eq_ok_iff hradix]
  unfold Numeral
  simp only [ofDigits_reverse, hcs, ne_eq, not_false_eq_true, true_imp_iff, true_and]

/-- A character that is no hexadecimal digit is in no numeral. -/
theorem Numeral.not_mem {x : Char} (hradix : radix ≤ 16) (hx : digitValue? 16 x = none)
    (h : Numeral radix cs n) : x ∉ cs := by
  obtain ⟨-, ds, hds, -⟩ := h
  induction hds with
  | nil => exact List.not_mem_nil
  | cons hd _ ih =>
    intro hmem
    rcases List.mem_cons.1 hmem with rfl | hmem
    · exact hd.ne hradix hx rfl
    · exact ih hmem

/-- **A numeral is read** with or without a plus, if it does not exceed the limit. -/
theorem readNumeral_eq_ok_iff (hradix : radix ≤ 16) :
    readNumeral radix limit cs = .ok n ↔ SignedNumeral true radix cs n ∧ n ≤ limit := by
  have hplus : ∀ {digits k}, ¬Numeral radix ('+' :: digits) k := fun h =>
    h.not_mem hradix rfl List.mem_cons_self
  unfold readNumeral SignedNumeral
  split
  · simp [Numeral]
  · rename_i c cs
    rw [readDigits_zero_iff hradix (List.cons_ne_nil c cs)]
    simp [hplus]
  · rename_i cs hne hsigned
    rw [readDigits_zero_iff hradix hne]
    refine and_congr_left fun _ => ⟨.inl, fun h => h.resolve_right ?_⟩
    -- behind a sign there would have to be a digit
    rintro ⟨-, digits, rfl, hdigits⟩
    cases digits with
    | nil => exact hdigits.1 rfl
    | cons c cs => exact hsigned c cs rfl

/-! ## Writing -/

/-- `n` in the radix, with `zeros` in front and in upper case wherever `upper` says so. -/
def spell (radix zeros : ℕ) (upper : ℕ → Bool) (n : ℕ) : List Char :=
  List.replicate zeros '0' ++
    (Nat.toDigits radix n).mapIdx fun i c => if upper i then c.toUpper else c

/-- The digits of a number say it. -/
theorem exists_toDigits (hradix : 1 < radix) (n : ℕ) : ∃ ds : List ℕ, (∀ d ∈ ds, d < radix) ∧
    Nat.toDigits radix n = ds.map Nat.digitChar ∧ Nat.ofDigits radix ds.reverse = n := by
  induction n using Nat.strong_induction_on with
  | _ n ih =>
    rw [Nat.toDigits_eq_if hradix]
    split
    · rename_i hlt
      exact ⟨[n], by simpa using hlt, rfl, by simp⟩
    · rename_i hge
      obtain ⟨ds, hds, heq, hn⟩ := ih (n / radix) (Nat.div_lt_self (by omega) hradix)
      have hlast : n % radix < radix := Nat.mod_lt n (by omega)
      refine ⟨ds ++ [n % radix], ?_, by rw [heq, List.map_append]; rfl, ?_⟩
      · exact List.forall_mem_append.2 ⟨hds, List.forall_mem_singleton.2 hlast⟩
      · rw [List.reverse_append, List.reverse_singleton, List.singleton_append,
          Nat.ofDigits_cons, hn]
        exact Nat.mod_add_div n radix

theorem digits_mapIdx {ds : List ℕ} (hds : ∀ d ∈ ds, d < radix) (upper : ℕ → Bool) :
    List.Forall₂ (Digit radix)
      ((ds.map Nat.digitChar).mapIdx fun i c => if upper i then c.toUpper else c) ds := by
  induction ds generalizing upper with
  | nil => exact .nil
  | cons d ds ih =>
    obtain ⟨hd, hds⟩ := List.forall_mem_cons.1 hds
    rw [List.map_cons, List.mapIdx_cons]
    refine .cons ⟨hd, ?_⟩ (ih hds fun i => upper (i + 1))
    cases upper 0 with
    | false => exact .inl rfl
    | true => exact .inr rfl

/-- **A number that is spelled** is a numeral which says it, in either case and behind any number of
zeros. -/
theorem numeral_spell (hradix : 1 < radix) (zeros : ℕ) (upper : ℕ → Bool) (n : ℕ) :
    Numeral radix (spell radix zeros upper n) n := by
  obtain ⟨ds, hds, heq, hn⟩ := exists_toDigits hradix n
  have hzeros : List.Forall₂ (Digit radix) (List.replicate zeros '0') (List.replicate zeros 0) := by
    induction zeros with
    | zero => exact .nil
    | succ zeros ih => exact .cons ⟨by omega, .inl rfl⟩ ih
  refine ⟨?_, List.replicate zeros 0 ++ ds, ?_, ?_⟩
  · have : Nat.toDigits radix n ≠ [] := Nat.toDigits_ne_nil
    simp [spell, this]
  · unfold spell
    rw [heq]
    exact List.rel_append hzeros (digits_mapIdx hds upper)
  · rw [List.reverse_append, List.reverse_replicate, Nat.ofDigits_append_replicate_zero, hn]

end Reflash.Text
