import Reflash.Proofs.Image
import Reflash.Proofs.Span
import Reflash.Window

/-!
# What the windows of two images are

Searches for windows start and stop at the borders of chunks (`Window.Border`).
What a search passes over is equal, and a window consists of chunks that differ.

* `nextWindow?_eq_none`: without a window, all from the offset on is equal.
* `nextWindow?_eq_some`: a window has borders, equal bytes before it, and chunks that differ in it.
* `nextWindow?_maximal`: it cannot be extended.
* `of_not_needErase`, `of_needErase`: what the images look like where no erase is needed, and
  where one is.
* `windowsFrom_overlay`: after a window is written, the windows behind it are the same as before.
-/

namespace Reflash

namespace Window

/-- A chunk starts at `pos`, or the images end there. -/
def Border (stride size pos : ℕ) : Prop := pos ≤ size ∧ (stride ∣ pos ∨ pos = size)

/-- The chunk with address `i` in it differs. -/
def differsAround (cur want : Image) (stride size i : ℕ) : Prop :=
  chunkDiffers cur want stride size (i / stride * stride) = true

variable {cur want : Image} {stride size pos i : ℕ}

theorem border_zero : Border stride size 0 := ⟨Nat.zero_le _, .inl (Nat.dvd_zero _)⟩

theorem Border.chunkEnd (h : Border stride size pos) :
    Border stride size (chunkEnd stride size pos) := by
  obtain ⟨hle, hdvd⟩ := h
  unfold Window.chunkEnd
  rcases Nat.le_total (pos + stride) size with hs | hs
  · rw [Nat.min_eq_left hs]
    rcases hdvd with hdvd | rfl
    · exact ⟨hs, .inl (Nat.dvd_add hdvd (Nat.dvd_refl _))⟩
    · exact ⟨hs, .inr (by omega)⟩
  · rw [Nat.min_eq_right hs]
    exact ⟨Nat.le_refl _, .inr rfl⟩

/-- The addresses of a chunk belong to no other. -/
theorem Border.chunk_start (h : Border stride size pos) (hle : pos ≤ i)
    (hlt : i < Window.chunkEnd stride size pos) : i / stride * stride = pos := by
  obtain ⟨-, hdvd⟩ := h
  unfold Window.chunkEnd at hlt
  rcases hdvd with ⟨k, rfl⟩ | rfl
  · have hpos : 0 < stride := by omega
    rw [(Nat.div_eq_iff hpos).2 ⟨_, _⟩, Nat.mul_comm]
    · rw [Nat.mul_comm]; exact hle
    · rw [Nat.mul_comm k]
      omega
  · omega

/-- A border has all of a chunk before it or behind it. -/
theorem Border.lt_iff {j : ℕ} (h : Border stride size pos) (hstride : 0 < stride) (hi : i < size)
    (hj : j < size) (hchunk : i / stride = j / stride) : i < pos ↔ j < pos := by
  rcases h.2 with ⟨k, rfl⟩ | rfl
  · rw [Nat.mul_comm, ← Nat.div_lt_iff_lt_mul hstride, ← Nat.div_lt_iff_lt_mul hstride, hchunk]
  · exact iff_of_true hi hj

theorem chunkDiffers_iff : chunkDiffers cur want stride size pos = true ↔
    ∃ i, pos ≤ i ∧ i < Window.chunkEnd stride size pos ∧ cur.byte i ≠ want.byte i := by
  unfold chunkDiffers
  simp only [Span.any_iff, Span.mem_def, Image.differsAt_iff, and_assoc]
  constructor <;> rintro ⟨i, h1, h2, h⟩ <;> exact ⟨i, h1, by omega, h⟩

/-- What is passed over in search of a chunk that differs is equal. -/
theorem skipEqual_spec (n : ℕ) (h : Border stride size pos) :
    Border stride size (skipEqual cur want stride size n pos) ∧
      ∀ i, pos ≤ i → i < skipEqual cur want stride size n pos → cur.byte i = want.byte i := by
  induction n generalizing pos with
  | zero => exact ⟨h, fun i h1 h2 => by unfold skipEqual at h2; omega⟩
  | succ n ih =>
    unfold skipEqual
    split
    · exact ⟨h, fun i h1 h2 => by omega⟩
    · rename_i heq
      refine ⟨(ih h.chunkEnd).1, fun i h1 h2 => ?_⟩
      -- either `i` is in the equal chunk at `pos`, or behind it
      by_cases hi : i < Window.chunkEnd stride size pos
      · by_contra hne
        exact heq (chunkDiffers_iff.2 ⟨i, h1, hi, hne⟩)
      · exact (ih h.chunkEnd).2 i (by omega) h2

/-- What is passed over in search of a chunk that is equal consists of chunks that differ. -/
theorem skipDiffering_spec (n : ℕ) (h : Border stride size pos) :
    Border stride size (skipDiffering cur want stride size n pos) ∧
      ∀ i, pos ≤ i → i < skipDiffering cur want stride size n pos →
        differsAround cur want stride size i := by
  induction n generalizing pos with
  | zero => exact ⟨h, fun i h1 h2 => by unfold skipDiffering at h2; omega⟩
  | succ n ih =>
    unfold skipDiffering
    split
    · rename_i hd
      refine ⟨(ih h.chunkEnd).1, fun i h1 h2 => ?_⟩
      -- either the chunk at `pos` is the one around `i`, or `i` is behind it
      by_cases hi : i < Window.chunkEnd stride size pos
      · unfold differsAround
        rw [h.chunk_start h1 hi]
        exact hd
      · exact (ih h.chunkEnd).2 i (by omega) h2
    · exact ⟨h, fun i h1 h2 => by omega⟩

end Window

open Window

variable {cur want : Image} {g : Granularity} {offset : ℕ} {w : Span}

/-- **Without a window there is no difference.** -/
theorem nextWindow?_eq_none (ho : Border g.stride (min cur.size want.size) offset)
    (h : nextWindow? cur want g offset = none) :
    ∀ i, offset ≤ i → i < min cur.size want.size → cur.byte i = want.byte i := by
  have hequal := (@skipEqual_spec cur want _ _ _
    (chunkCount g.stride (min cur.size want.size) offset) ho).2
  unfold nextWindow? at h
  dsimp only at h
  split at h
  · cases h
  · intro i h1 h2
    exact hequal i h1 (by omega)

/-- **A window** starts and stops at borders, all is equal from the offset up to it, and it consists
of chunks that differ. -/
theorem nextWindow?_eq_some (ho : Border g.stride (min cur.size want.size) offset)
    (h : nextWindow? cur want g offset = some w) :
    Border g.stride (min cur.size want.size) w.stop ∧
      (∀ i, offset ≤ i → i < w.start → cur.byte i = want.byte i) ∧
      ∀ i ∈ w, differsAround cur want g.stride (min cur.size want.size) i := by
  obtain ⟨-, hlen, -⟩ := nextWindow?_bounds h
  obtain ⟨hstart, hequal⟩ := @skipEqual_spec cur want _ _ _
    (chunkCount g.stride (min cur.size want.size) offset) ho
  unfold nextWindow? at h
  dsimp only at h
  -- the first search gives the start of the window, the second one its stop
  generalize skipEqual cur want g.stride (min cur.size want.size)
    (chunkCount g.stride (min cur.size want.size) offset) offset = start at *
  obtain ⟨hstop, hdiffer⟩ := @skipDiffering_spec cur want _ _ _
    (chunkCount g.stride (min cur.size want.size) start) hstart
  generalize skipDiffering cur want g.stride (min cur.size want.size)
    (chunkCount g.stride (min cur.size want.size) start) start = stop at *
  split at h
  · cases h
    dsimp only at hlen
    refine ⟨?_, hequal, fun i ⟨h1, h2⟩ => ?_⟩
    · show Border _ _ (start + (stop - start))
      rwa [Nat.add_sub_cancel' (by omega)]
    · dsimp only at h1 h2
      exact hdiffer i h1 (by omega)
  · cases h

/-- In a window some byte differs. -/
theorem nextWindow?_differs (h : nextWindow? cur want g offset = some w) :
    ∃ i ∈ w, cur.byte i ≠ want.byte i := by
  unfold nextWindow? at h
  dsimp only at h
  split at h
  case isFalse => cases h
  rename_i hlt
  have hd := Window.chunkDiffers_skipEqual g.stride_pos _ offset (Nat.le_refl _) hlt
  generalize Window.skipEqual cur want g.stride (min cur.size want.size)
    (Window.chunkCount g.stride (min cur.size want.size) offset) offset = start at *
  obtain ⟨i, h1, h2, hne⟩ := Window.chunkDiffers_iff.1 hd
  -- the window reaches at least to the end of its first chunk
  have hcount := Window.chunkCount_pos g.stride_pos hlt
  obtain ⟨n, hn⟩ := Nat.exists_eq_succ_of_ne_zero hcount.ne'
  have hend : Window.chunkEnd g.stride (min cur.size want.size) start ≤
      min cur.size want.size := Nat.min_le_right _ _
  have hstop := (@Window.le_skipDiffering cur want g.stride _ n _ hend).1
  simp only [hn, Nat.succ_eq_add_one, Window.skipDiffering, hd, if_true, Option.some.injEq] at h
  subst h
  exact ⟨i, ⟨h1, by dsimp only; omega⟩, hne⟩

/-- **A window is maximal**: it starts at a chunk that differs and stops at one that does not. -/
theorem nextWindow?_maximal (ho : Border g.stride (min cur.size want.size) offset)
    (h : nextWindow? cur want g offset = some w) :
    Border g.stride (min cur.size want.size) w.start ∧
      chunkDiffers cur want g.stride (min cur.size want.size) w.start = true ∧
      (w.stop < min cur.size want.size →
        chunkDiffers cur want g.stride (min cur.size want.size) w.stop = false) := by
  have hborder := (@skipEqual_spec cur want _ _ _
    (chunkCount g.stride (min cur.size want.size) offset) ho).1
  unfold nextWindow? at h
  dsimp only at h
  split at h
  case isFalse => cases h
  rename_i hlt
  have hdiffers := chunkDiffers_skipEqual g.stride_pos _ offset (Nat.le_refl _) hlt
  generalize skipEqual cur want g.stride (min cur.size want.size)
    (chunkCount g.stride (min cur.size want.size) offset) offset = start at *
  have hstop := (@le_skipDiffering cur want g.stride _
    (chunkCount g.stride (min cur.size want.size) start) start hlt.le).1
  cases h
  refine ⟨hborder, hdiffers, fun hend => ?_⟩
  unfold Span.stop at hend ⊢
  dsimp only at hend ⊢
  rw [Nat.add_sub_cancel' hstop] at hend ⊢
  exact not_chunkDiffers_skipDiffering g.stride_pos _ start (Nat.le_refl _) hend

/-- The chunk of a byte is one of the pieces that the images are cut into. -/
theorem chunk_mem_pieces {n size i : ℕ} (hn : 0 < n) (hi : i < size) :
    (⟨i / n * n, min n (size - i / n * n)⟩ : Span) ∈ Span.pieces ⟨0, size⟩ n := by
  have hstart : i / n * n ≤ i := Nat.div_mul_le_self i n
  refine List.mem_map.2 ⟨i / n, List.mem_range.2 ?_, by simp⟩
  rw [Nat.lt_iff_add_one_le, Nat.le_div_iff_mul_le hn, Nat.add_mul]
  dsimp only
  omega

/-- **Where no erase is needed**, a chunk that differs is erased, unless the chip programs bit by
bit or erases on its own. -/
theorem of_not_needErase {erased : UInt8} (h : needErase cur want g erased = false) {i : ℕ}
    (hi : i < min cur.size want.size)
    (hd : differsAround cur want g.stride (min cur.size want.size) i) :
    g = .byteImplicitErase ∨ (g = .bit ∧ cur.byte i &&& want.byte i = want.byte i) ∨
      cur.byte i = erased := by
  obtain ⟨j, h1, h2, hne⟩ := chunkDiffers_iff.1 hd
  have hdiv := Nat.div_add_mod i g.stride
  have hmod := Nat.mod_lt i g.stride_pos
  rw [Nat.mul_comm] at hdiv
  unfold chunkEnd at h2
  have hshared : ∀ k, k < min cur.size want.size → k ∈ Image.shared cur want := fun k hk =>
    ⟨Nat.zero_le _, (Nat.zero_add _).symm ▸ hk⟩
  have hdiffers : Image.differsAt cur want j = true := Image.differsAt_iff.2 hne
  unfold needErase at h
  dsimp only at h
  split at h
  · -- bits
    have hbit := Span.not_of_any h (hshared i hi)
    rw [bne_eq_false_iff_eq] at hbit
    exact .inr (.inl ⟨rfl, hbit⟩)
  · -- bytes, each of which is a chunk
    have hj : j = i := by
      rw [Granularity.stride, Nat.div_one, Nat.mul_one] at h1 h2
      omega
    subst hj
    have hbyte := Span.not_of_any h (hshared j hi)
    rw [hdiffers, Bool.true_and, bne_eq_false_iff_eq] at hbyte
    exact .inr (.inr hbyte)
  · exact .inl rfl
  · -- the chunk is one of the pieces
    have hnone := List.any_eq_false.1 h _ (chunk_mem_pieces g.stride_pos hi)
    rw [Bool.and_eq_true, Span.any_iff, Span.any_iff] at hnone
    -- `j` differs there, so if `i` were not erased, an erase would be needed
    by_contra hcontra
    refine hnone ⟨⟨j, ⟨h1, ?_⟩, hdiffers⟩, ⟨i, ⟨?_, ?_⟩, ?_⟩⟩
    · dsimp only
      omega
    · dsimp only
      omega
    · dsimp only
      omega
    · rw [bne_iff_ne]
      exact fun he => hcontra (.inr (.inr he))

/-- **Where an erase is needed**, some byte gains bits that it lost, or some chunk differs and is not
erased. -/
theorem of_needErase {erased : UInt8} (h : needErase cur want g erased = true) :
    (g = .bit ∧ ∃ i < min cur.size want.size, cur.byte i &&& want.byte i ≠ want.byte i) ∨
      (g ≠ .byteImplicitErase ∧ ∃ i < min cur.size want.size, ∃ j < min cur.size want.size,
        i / g.stride = j / g.stride ∧ cur.byte i ≠ want.byte i ∧ cur.byte j ≠ erased) := by
  have hshared : ∀ k ∈ Image.shared cur want, k < min cur.size want.size := fun k hk =>
    hk.2.trans_eq (Nat.zero_add _)
  unfold needErase at h
  dsimp only at h
  split at h
  · obtain ⟨i, hi, hlost⟩ := Span.any_iff.1 h
    exact .inl ⟨rfl, i, hshared i hi, bne_iff_ne.1 hlost⟩
  · obtain ⟨i, hi, hboth⟩ := Span.any_iff.1 h
    rw [Bool.and_eq_true, Image.differsAt_iff, bne_iff_ne] at hboth
    exact .inr ⟨by simp, i, hshared i hi, i, hshared i hi, rfl, hboth⟩
  · cases h
  · rename_i hne
    obtain ⟨p, hp, hboth⟩ := List.any_eq_true.1 h
    rw [Bool.and_eq_true, Span.any_iff, Span.any_iff] at hboth
    obtain ⟨⟨i, hi, hdiffers⟩, j, hj, hleft⟩ := hboth
    obtain ⟨⟨q, hq⟩, hlen⟩ := Span.pieces_aligned hp
    have hin : p.start + p.len ≤ 0 + min cur.size want.size := (Span.pieces_inside hp).2
    -- both addresses are in the piece, which is one chunk
    have hchunk : ∀ k ∈ p, k < min cur.size want.size ∧ k / g.stride = q := by
      rintro k ⟨h1, h2⟩
      refine ⟨by omega, Nat.div_eq_of_lt_le ?_ ?_⟩
      · rw [Nat.mul_comm]
        omega
      · rw [Nat.succ_mul, Nat.mul_comm]
        omega
    exact .inr ⟨hne, i, (hchunk i hi).1, j, (hchunk j hj).1,
      (hchunk i hi).2.trans (hchunk j hj).2.symm, Image.differsAt_iff.1 hdiffers,
      bne_iff_ne.1 hleft⟩

/-! ## What windows depend on -/

namespace Window

variable {cur cur' want : Image} {stride size offset pos : ℕ}

theorem chunkDiffers_congr (h : ∀ i, offset ≤ i → cur'.byte i = cur.byte i) (hpos : offset ≤ pos) :
    chunkDiffers cur' want stride size pos = chunkDiffers cur want stride size pos := by
  rw [Bool.eq_iff_iff, chunkDiffers_iff, chunkDiffers_iff]
  refine exists_congr fun i => and_congr_right fun hi => ?_
  rw [h i (hpos.trans hi)]

theorem skipEqual_congr (h : ∀ i, offset ≤ i → cur'.byte i = cur.byte i) (n : ℕ)
    (hpos : offset ≤ pos) (hle : pos ≤ size) :
    skipEqual cur' want stride size n pos = skipEqual cur want stride size n pos := by
  induction n generalizing pos with
  | zero => rfl
  | succ n ih =>
    unfold skipEqual
    rw [chunkDiffers_congr h hpos]
    refine if_congr Iff.rfl rfl (ih ?_ ?_)
    · unfold chunkEnd; omega
    · unfold chunkEnd; omega

theorem skipDiffering_congr (h : ∀ i, offset ≤ i → cur'.byte i = cur.byte i) (n : ℕ)
    (hpos : offset ≤ pos) (hle : pos ≤ size) :
    skipDiffering cur' want stride size n pos = skipDiffering cur want stride size n pos := by
  induction n generalizing pos with
  | zero => rfl
  | succ n ih =>
    unfold skipDiffering
    rw [chunkDiffers_congr h hpos]
    refine if_congr Iff.rfl (ih ?_ ?_) rfl
    · unfold chunkEnd; omega
    · unfold chunkEnd; omega

end Window

variable {cur cur' want : Image} {g : Granularity} {offset : ℕ}

/-- A window depends only on what is at or behind the offset that it is looked for from. -/
theorem nextWindow?_congr (hsize : cur'.size = cur.size) (ho : offset ≤ min cur.size want.size)
    (h : ∀ i, offset ≤ i → cur'.byte i = cur.byte i) :
    nextWindow? cur' want g offset = nextWindow? cur want g offset := by
  have hstart := @Window.le_skipEqual cur want g.stride _
    (Window.chunkCount g.stride (min cur.size want.size) offset) offset ho
  unfold nextWindow?
  dsimp only
  rw [hsize, Window.skipEqual_congr h _ (Nat.le_refl _) ho,
    Window.skipDiffering_congr h _ hstart.1 hstart.2]

/-- So do all the windows. -/
theorem windowsFrom_congr (hsize : cur'.size = cur.size) (ho : offset ≤ min cur.size want.size)
    (h : ∀ i, offset ≤ i → cur'.byte i = cur.byte i) (n : ℕ) :
    windowsFrom cur' want g n offset = windowsFrom cur want g n offset := by
  induction n generalizing offset with
  | zero => rfl
  | succ n ih =>
    unfold windowsFrom
    rw [nextWindow?_congr hsize ho h]
    cases hw : nextWindow? cur want g offset with
    | none => rfl
    | some w =>
      -- the next window is looked for behind this one
      obtain ⟨hstart, -, hstop⟩ := nextWindow?_bounds hw
      have hle : offset ≤ w.stop := hstart.trans (Nat.le_add_right _ _)
      dsimp only
      rw [ih hstop fun i hi => h i (hle.trans hi)]

/-- **After a window is written**, the windows behind it are the same as before. -/
theorem windowsFrom_overlay {w : Span} {data : Image} (hstop : w.stop ≤ min cur.size want.size)
    (hdata : data.size = w.len) (n : ℕ) :
    windowsFrom (Image.overlay cur w.start data) want g n w.stop =
      windowsFrom cur want g n w.stop := by
  refine windowsFrom_congr Image.size_overlay hstop (fun i hi => ?_) n
  unfold Span.stop at hi
  exact Image.byte_overlay_outside (by omega)

/-- Windows lie inside both images, at or behind the offset. -/
theorem windowsFrom_bounds {w : Span} {n : ℕ} (hw : w ∈ windowsFrom cur want g n offset) :
    offset ≤ w.start ∧ 0 < w.len ∧ w.stop ≤ min cur.size want.size := by
  induction n generalizing offset with
  | zero => cases hw
  | succ n ih =>
    unfold windowsFrom at hw
    split at hw
    · cases hw
    · rename_i v hv
      have hbounds := nextWindow?_bounds hv
      rcases List.mem_cons.1 hw with rfl | hw
      · exact hbounds
      · obtain ⟨h1, h2⟩ := ih hw
        unfold Span.stop at h1
        exact ⟨by omega, h2⟩

end Reflash
