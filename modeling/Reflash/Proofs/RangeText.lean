import Reflash.Proofs.Numeral
import Reflash.RangeText

/-!
# Ranges in writing

The grammar of ranges, as a relation between texts and ranges, and the ways to write a range.

* `readAddress_eq_ok_iff`, `splitOnce_eq_some_iff`: the parts of a range that are read.
* `ofText_eq_ok_iff`: a text is read as a range exactly if the grammar has it.
* `ofText_between`, `ofText_along`: what is read of two numbers, however they are written.
* `ofText_written`: so every range is read back.
-/

namespace Reflash.AddressRange

open Text

variable {signed : Bool} {cs xs ys : List Char} {c : Char} {text : String} {a b n : ℕ}
  {r : AddressRange}

/-! ## The grammar -/

/-- The characters are a number: decimal digits, or hexadecimal ones behind `0x` or `0X`. If it may
be signed, a plus may stand in front of the digits. -/
inductive Number (signed : Bool) : List Char → ℕ → Prop
  | decimal {cs : List Char} {n : ℕ} : SignedNumeral signed 10 cs n → Number signed cs n
  | hexadecimal {cs : List Char} {n : ℕ} {mark : Char} : mark = 'x' ∨ mark = 'X' →
    SignedNumeral signed 16 cs n → Number signed ('0' :: mark :: cs) n

/-- The characters are a range, `START-END` or `START+LEN`. If numbers may be signed, this does not
go for the start in front of a length, where the plus would be taken for the one between them. -/
inductive Written (signed : Bool) : List Char → AddressRange → Prop
  | between {cs cs' : List Char} {a b : ℕ} : Number signed cs a → Number signed cs' b →
    Written signed (cs ++ '-' :: cs') ⟨a, b⟩
  | along {cs cs' : List Char} {a n : ℕ} : Number false cs a → Number signed cs' n →
    Written signed (cs ++ '+' :: cs') ⟨a, a + n⟩

theorem number_plain (h : Number false cs n) : Number true cs n := by
  cases h with
  | decimal h => exact .decimal (.inl (h.resolve_right nofun))
  | hexadecimal hmark h => exact .hexadecimal hmark (.inl (h.resolve_right nofun))

/-! ## Reading numbers -/

theorem mapError_eq_ok_iff {α ε ε' : Type} {f : ε → ε'} {x : Except ε α} {a : α} :
    x.mapError f = .ok a ↔ x = .ok a := by
  cases x <;> simp [Except.mapError]

/-- What stands behind the mark of the radix is hexadecimal. -/
theorem number_marked {mark : Char} (hmark : mark = 'x' ∨ mark = 'X') :
    Number signed ('0' :: mark :: cs) n ↔ SignedNumeral signed 16 cs n := by
  constructor
  · intro h
    cases h with
    | hexadecimal _ h => exact h
    | decimal h =>
      rcases h with h | ⟨-, digits, heq, -⟩
      · -- the mark is no digit
        have hx : digitValue? 16 mark = none := by rcases hmark with rfl | rfl <;> rfl
        exact absurd (List.mem_cons_of_mem _ List.mem_cons_self) (h.not_mem (by decide) hx)
      · cases heq
  · exact .hexadecimal hmark

/-- **A number is read** if it is an address. -/
theorem readAddress_eq_ok_iff : readAddress cs = .ok n ↔ Number true cs n ∧ n ≤ maxAddress := by
  unfold readAddress
  split
  · rw [mapError_eq_ok_iff, readNumeral_eq_ok_iff (by decide), number_marked (.inl rfl)]
  · rw [mapError_eq_ok_iff, readNumeral_eq_ok_iff (by decide), number_marked (.inr rfl)]
  · rename_i hlower hupper
    rw [mapError_eq_ok_iff, readNumeral_eq_ok_iff (by decide)]
    refine and_congr_left fun _ => ⟨.decimal, fun h => ?_⟩
    cases h with
    | decimal h => exact h
    | hexadecimal hmark _ =>
      rcases hmark with rfl | rfl
      · exact absurd rfl (hlower _)
      · exact absurd rfl (hupper _)

/-! ## Splitting -/

/-- **A text is split** in front of and behind the first `c`. -/
theorem splitOnce_eq_some_iff :
    splitOnce c cs = some (xs, ys) ↔ cs = xs ++ c :: ys ∧ c ∉ xs := by
  induction cs generalizing xs with
  | nil => simp [splitOnce]
  | cons x cs ih =>
    unfold splitOnce
    split
    · rename_i hx
      subst hx
      constructor
      · rintro ⟨⟩
        exact ⟨rfl, List.not_mem_nil⟩
      · rintro ⟨heq, hnot⟩
        cases xs with
        | nil =>
          obtain ⟨-, rfl⟩ := List.cons.inj heq
          rfl
        | cons y before => exact absurd (List.cons.inj heq).1 (List.ne_of_not_mem_cons hnot)
    · rename_i hx
      rw [Option.map_eq_some_iff]
      constructor
      · rintro ⟨⟨before, behind⟩, hrest, ⟨⟩⟩
        obtain ⟨rfl, hnot⟩ := ih.1 hrest
        exact ⟨rfl, List.not_mem_cons_of_ne_of_not_mem (Ne.symm hx) hnot⟩
      · rintro ⟨heq, hnot⟩
        cases xs with
        | nil => exact absurd (List.cons.inj heq).1 hx
        | cons y before =>
          obtain ⟨rfl, rfl⟩ := List.cons.inj heq
          exact ⟨(before, ys), ih.2 ⟨rfl, List.not_mem_of_not_mem_cons hnot⟩, rfl⟩

theorem splitOnce_eq_none_iff : splitOnce c cs = none ↔ c ∉ cs := by
  induction cs with
  | nil => simp [splitOnce]
  | cons x cs ih =>
    unfold splitOnce
    split <;> simp_all [eq_comm]

/-! ## Reading ranges -/

/-- A number has no character that is no digit, other than the mark of its radix and the plus. -/
theorem Number.not_mem {x : Char} (hx : digitValue? 16 x = none) (hmark : x ≠ 'x' ∧ x ≠ 'X')
    (hplus : signed = true → x ≠ '+') (h : Number signed cs n) : x ∉ cs := by
  have hsigned : ∀ {radix digits}, radix ≤ 16 → SignedNumeral signed radix digits n →
      x ∉ digits := by
    rintro radix digits hradix (h | ⟨hs, digits, rfl, h⟩)
    · exact h.not_mem hradix hx
    · exact List.not_mem_cons_of_ne_of_not_mem (hplus hs) (h.not_mem hradix hx)
  cases h with
  | decimal h => exact hsigned (by decide) h
  | hexadecimal hm h =>
    refine List.not_mem_cons_of_ne_of_not_mem (by rintro rfl; cases hx)
      (List.not_mem_cons_of_ne_of_not_mem ?_ (hsigned (by decide) h))
    rintro rfl
    exact hm.elim hmark.1 hmark.2

theorem Number.minus_not_mem (h : Number signed cs n) : '-' ∉ cs :=
  h.not_mem rfl (by decide) fun _ => by decide

theorem Number.plus_not_mem (h : Number false cs n) : '+' ∉ cs :=
  h.not_mem rfl (by decide) (by simp)

/-- A number without a plus is not signed. -/
theorem Number.unsigned (h : Number true cs n) (hplus : '+' ∉ cs) : Number false cs n := by
  have hsigned : ∀ {radix digits}, '+' ∉ digits → SignedNumeral true radix digits n →
      SignedNumeral false radix digits n := by
    rintro radix digits hnot (h | ⟨-, digits, rfl, h⟩)
    · exact .inl h
    · exact absurd List.mem_cons_self hnot
  cases h with
  | decimal h => exact .decimal (hsigned hplus h)
  | hexadecimal hmark h =>
    refine .hexadecimal hmark (hsigned (fun hmem => hplus ?_) h)
    exact List.mem_cons_of_mem _ (List.mem_cons_of_mem _ hmem)

theorem bind_eq_ok_iff {ε α β : Type} {x : Except ε α} {f : α → Except ε β} {y : β} :
    x >>= f = .ok y ↔ ∃ u, x = .ok u ∧ f u = .ok y := by
  cases x <;> simp [bind, Except.bind]

/-- Behind the first minus there is the end. -/
theorem readBounds_between (hxs : '-' ∉ xs) : readBounds text (xs ++ '-' :: ys) = (do
    let a ← readAddress xs
    let b ← readAddress ys
    pure ⟨a, b⟩) := by
  unfold readBounds
  rw [splitOnce_eq_some_iff.2 ⟨rfl, hxs⟩]

/-- Without a minus, there is a length behind the first plus. -/
theorem readBounds_along (hxs : '-' ∉ xs) (hys : '-' ∉ ys) (hplus : '+' ∉ xs) :
    readBounds text (xs ++ '+' :: ys) = (do
      let a ← readAddress xs
      let n ← readAddress ys
      if a + n ≤ maxAddress then pure ⟨a, a + n⟩ else throw (.overflow text)) := by
  unfold readBounds
  rw [splitOnce_eq_none_iff.2 (by simp [hxs, hys])]
  dsimp only
  rw [splitOnce_eq_some_iff.2 ⟨rfl, hplus⟩]

/-- **The bounds are read** of the ranges that the grammar has, if both are addresses. -/
theorem readBounds_eq_ok_iff : readBounds text cs = .ok r ↔
    Written true cs r ∧ r.start ≤ maxAddress ∧ r.stop ≤ maxAddress := by
  constructor
  · intro h
    unfold readBounds at h
    split at h
    · rename_i hminus
      obtain ⟨rfl, -⟩ := splitOnce_eq_some_iff.1 hminus
      simp only [bind_eq_ok_iff, readAddress_eq_ok_iff] at h
      obtain ⟨a, ⟨hxs, ha⟩, b, ⟨hys, hb⟩, ⟨⟩⟩ := h
      exact ⟨.between hxs hys, ha, hb⟩
    · split at h
      · rename_i hplus
        obtain ⟨rfl, hxs⟩ := splitOnce_eq_some_iff.1 hplus
        simp only [bind_eq_ok_iff, readAddress_eq_ok_iff] at h
        obtain ⟨a, ⟨hnumber, ha⟩, n, ⟨hlen, -⟩, hr⟩ := h
        split at hr
        · rename_i hsum
          obtain ⟨⟩ := hr
          exact ⟨.along (hnumber.unsigned hxs) hlen, ha, hsum⟩
        · cases hr
      · cases h
  · rintro ⟨hwritten, hstart, hstop⟩
    cases hwritten with
    | between h h' =>
      rw [readBounds_between h.minus_not_mem]
      simp only [bind_eq_ok_iff, readAddress_eq_ok_iff]
      exact ⟨_, ⟨h, hstart⟩, _, ⟨h', hstop⟩, rfl⟩
    | along h h' =>
      dsimp only at hstart hstop
      rw [readBounds_along h.minus_not_mem h'.minus_not_mem h.plus_not_mem]
      simp only [bind_eq_ok_iff, readAddress_eq_ok_iff]
      refine ⟨_, ⟨number_plain h, hstart⟩, _, ⟨h', by omega⟩, ?_⟩
      rw [if_pos hstop]
      rfl

/-- **A text is read as a range** exactly if the grammar has it, the range is not empty and its
bounds are addresses. The numbers may be signed. -/
theorem ofText_eq_ok_iff : ofText text = .ok r ↔
    Written true text.toList r ∧ r.start < r.stop ∧ r.stop ≤ maxAddress := by
  unfold ofText
  rw [bind_eq_ok_iff]
  simp only [readBounds_eq_ok_iff]
  constructor
  · rintro ⟨range, ⟨hwritten, -, hstop⟩, h⟩
    split at h
    · rename_i hlt
      obtain ⟨⟩ := h
      exact ⟨hwritten, hlt, hstop⟩
    · cases h
  · rintro ⟨hwritten, hlt, hstop⟩
    refine ⟨r, ⟨hwritten, by omega, hstop⟩, ?_⟩
    rw [if_pos hlt]
    rfl

/-- Without signs a range has a minus or a plus, but not both. -/
theorem Written.plus_not_mem (h : Written false cs r) (hminus : '-' ∈ cs) : '+' ∉ cs := by
  cases h with
  | between h h' => simp [h.plus_not_mem, h'.plus_not_mem]
  | along h h' => simp [h.minus_not_mem, h'.minus_not_mem] at hminus

/-- A sign is taken that the grammar without signs does not have. -/
theorem ofText_signed_end :
    ofText "1-+5" = .ok ⟨1, 5⟩ ∧ ¬∃ r, Written false "1-+5".toList r := by
  refine ⟨by decide, ?_⟩
  rintro ⟨r, h⟩
  exact h.plus_not_mem (by decide) (by decide)

/-! ## Writing ranges -/

/-- A way to write numbers: the radix, how many zeros stand in front, and what is in upper case. -/
inductive Spelling where
  | decimal (zeros : ℕ)
  | hexadecimal (upperMark : Bool) (zeros : ℕ) (upper : ℕ → Bool)

/-- The number `n`, written in this way. -/
def Spelling.write : Spelling → ℕ → List Char
  | .decimal zeros, n => spell 10 zeros (fun _ => false) n
  | .hexadecimal upperMark zeros upper, n =>
    '0' :: (if upperMark then 'X' else 'x') :: spell 16 zeros upper n

/-- The range from `a` to `b`, written `START-END`. -/
def between (s t : Spelling) (a b : ℕ) : String :=
  String.ofList (s.write a ++ '-' :: t.write b)

/-- The range of `n` addresses from `a`, written `START+LEN`. -/
def along (s t : Spelling) (a n : ℕ) : String :=
  String.ofList (s.write a ++ '+' :: t.write n)

variable (s t : Spelling)

theorem number_write (n : ℕ) : Number false (s.write n) n := by
  cases s with
  | decimal zeros => exact .decimal (.inl (numeral_spell (by decide) zeros _ n))
  | hexadecimal upperMark zeros upper =>
    refine .hexadecimal ?_ (.inl (numeral_spell (by decide) zeros upper n))
    cases upperMark with
    | false => exact .inl rfl
    | true => exact .inr rfl

theorem readAddress_write (hn : n ≤ maxAddress) : readAddress (s.write n) = .ok n :=
  readAddress_eq_ok_iff.2 ⟨number_plain (number_write s n), hn⟩

/-- **Two bounds** are read however they are written, and refused if they are no range. -/
theorem ofText_between (ha : a ≤ maxAddress) (hb : b ≤ maxAddress) :
    ofText (between s t a b) =
      if a < b then .ok ⟨a, b⟩ else .error (.empty (between s t a b)) := by
  unfold ofText
  rw [show (between s t a b).toList = s.write a ++ '-' :: t.write b from String.toList_ofList,
    readBounds_between (number_write s a).minus_not_mem, readAddress_write s ha,
    readAddress_write t hb]
  rfl

/-- **A length** is read however it is written, and refused if it is zero or too large. -/
theorem ofText_along (ha : a ≤ maxAddress) (hn : n ≤ maxAddress) :
    ofText (along s t a n) =
      if maxAddress < a + n then .error (.overflow (along s t a n))
      else if n = 0 then .error (.empty (along s t a n))
      else .ok ⟨a, a + n⟩ := by
  have hs := number_write s a
  unfold ofText
  rw [show (along s t a n).toList = s.write a ++ '+' :: t.write n from String.toList_ofList,
    readBounds_along hs.minus_not_mem (number_write t n).minus_not_mem hs.plus_not_mem,
    readAddress_write s ha, readAddress_write t hn]
  simp only [bind, Except.bind]
  rcases Nat.lt_or_ge maxAddress (a + n) with hsum | hsum
  · rw [if_neg (Nat.not_le.2 hsum), if_pos hsum]
    rfl
  · rw [if_pos hsum, if_neg (Nat.not_lt.2 hsum)]
    rcases Nat.eq_zero_or_pos n with rfl | hpos
    · exact if_neg (Nat.lt_irrefl a)
    · exact (if_pos (Nat.lt_add_of_pos_right hpos)).trans (if_neg hpos.ne').symm

/-- **Every range is read back**, whether it is written by its end or by its length, and whatever
way its numbers are written. Bounds in the wrong order, a length of zero and a range that reaches
beyond the last address are refused. -/
theorem ofText_written (ha : a ≤ maxAddress) (hb : b ≤ maxAddress) (hn : n ≤ maxAddress) :
    (a < b → ofText (between s t a b) = .ok ⟨a, b⟩ ∧
      ofText (along s t a (b - a)) = .ok ⟨a, b⟩) ∧
    (b ≤ a → ofText (between s t a b) = .error (.empty (between s t a b))) ∧
    (n = 0 → ofText (along s t a n) = .error (.empty (along s t a n))) ∧
    (maxAddress < a + n → ofText (along s t a n) = .error (.overflow (along s t a n))) := by
  rw [ofText_between s t ha hb, ofText_along s t ha hn, ofText_along s t ha (by omega)]
  refine ⟨fun hlt => ⟨if_pos hlt, ?_⟩, fun hle => if_neg (by omega), ?_, fun hsum => if_pos hsum⟩
  · rw [if_neg (by omega), if_neg (by omega), Nat.add_sub_cancel' hlt.le]
  · rintro rfl
    rw [if_neg (by omega), if_pos rfl]

/-- Mixed cases, zeros in front and the last address of all; one address more is too many. -/
theorem ofText_written_mixed :
    ofText "0x00fF-04294967295" = .ok ⟨255, maxAddress⟩ ∧
    ofText "0x00fF+04294967040" = .ok ⟨255, maxAddress⟩ ∧
    ofText "0x00fF+04294967041" = .error (.overflow "0x00fF+04294967041") := by
  have h := ofText_written (.hexadecimal false 2 fun i => i == 1) (.decimal 1)
    (a := 255) (b := maxAddress) (n := 4294967041) (by decide) (by decide) (by decide)
  exact ⟨(h.1 (by decide)).1, (h.1 (by decide)).2, h.2.2.2 (by decide)⟩

end Reflash.AddressRange
