import Reflash.Proofs.Plan.Catalog
import Reflash.Proofs.Plan.Structure

/-!
# Plans and the order of the erase functions

The number of an erase function is its place in the description of a chip. Everything that is
done with an eraser, apart from selecting it, looks at its block size only, and so the numbers
can be changed before or after. The selection visits the functions in the order of their
numbers. But if no two candidate erasers have one block size, all of them are in the sorted
list, whatever the order.

* `compare_rename`: comparing and folding with other numbers.
* `covering_permute`: the sorted list on a chip with the same functions in another order.
* `prepare_permute`: the plan there is the same up to the numbers of the functions.
-/

namespace Reflash

variable {ρ : ℕ → ℕ} {chip : Chip} {old new : Image} {extent : ℕ} {es : List Eraser}

/-! ## Other numbers -/

/-- The same eraser of a function with another number. -/
def Eraser.rename (ρ : ℕ → ℕ) (e : Eraser) : Eraser := { e with function := ρ e.function }

/-- The same blocks, processed with a function with another number. -/
def ProcessingUnit.rename (ρ : ℕ → ℕ) (u : ProcessingUnit) : ProcessingUnit :=
  { u with function := ρ u.function }

/-- The same plan with other numbers of the functions. -/
def Plan.rename (ρ : ℕ → ℕ) (p : Plan) : Plan :=
  { p with units := p.units.map (ProcessingUnit.rename ρ) }

namespace ChangeMap

variable {m : ChangeMap} {ms : List ChangeMap}

/-- The same marks for a function with another number. -/
def rename (ρ : ℕ → ℕ) (m : ChangeMap) : ChangeMap := { m with eraser := m.eraser.rename ρ }

theorem build_rename (size : ℕ) :
    build size (es.map (Eraser.rename ρ)) = (build size es).map (rename ρ) := by
  induction es with
  | nil => rfl
  | cons e es ih =>
    simp only [List.map_cons, build, ih, List.head?_map]
    cases es.head? <;> rfl

theorem promoteAll_rename :
    promoteAll (m.rename ρ) (ms.map (rename ρ)) = (promoteAll m ms).map (rename ρ) := by
  induction ms generalizing m with
  | nil => rfl
  | cons k ms ih =>
    simp only [List.map_cons, promoteAll]
    rw [← ih]
    rfl

theorem promote_rename : promote (ms.map (rename ρ)) = (promote ms).map (rename ρ) := by
  cases ms with
  | nil => rfl
  | cons m ms => exact congrArg (m.rename ρ :: ·) promoteAll_rename

theorem foldr_clearInside_rename :
    (ms.map (rename ρ)).foldr (fun c m => m.clearInside c) (m.rename ρ) =
      (ms.foldr (fun c m => m.clearInside c) m).rename ρ := by
  induction ms with
  | nil => rfl
  | cons k ms ih =>
    rw [List.map_cons, List.foldr_cons, ih]
    rfl

theorem settle_rename : settle (ms.map (rename ρ)) = (settle ms).map (rename ρ) := by
  induction ms with
  | nil => rfl
  | cons m ms ih => simp only [List.map_cons, settle, ih, foldr_clearInside_rename]

theorem units_rename : units (ms.map (rename ρ)) = (units ms).map (ProcessingUnit.rename ρ) := by
  have hunits : ∀ m : ChangeMap, (m.rename ρ).mapUnits =
      m.mapUnits.map (ProcessingUnit.rename ρ) := by
    intro m
    unfold mapUnits
    rw [List.map_map]
    rfl
  unfold units
  simp [List.flatMap_map, List.map_flatMap, hunits]

/-- **Comparing and folding** looks at block sizes only. -/
theorem compare_rename : compare chip (es.map (Eraser.rename ρ)) old new =
    (compare chip es old new).map (rename ρ) := by
  unfold compare
  rw [build_rename]
  cases build chip.totalSize es with
  | nil => rfl
  | cons finest coarser =>
    dsimp only [List.map_cons]
    rw [← settle_rename, ← promote_rename]
    rfl

end ChangeMap

theorem ofErasers_rename : Plan.ofErasers chip old new (es.map (Eraser.rename ρ)) =
    (Plan.ofErasers chip old new es).rename ρ := by
  unfold Plan.ofErasers Plan.rename
  rw [ChangeMap.compare_rename, ChangeMap.units_rename]

/-- What nests is decided by block sizes. -/
theorem nesting_rename {finer : Eraser} :
    (nesting (finer.rename ρ) (es.map (Eraser.rename ρ))).1 =
      (nesting finer es).1.map (Eraser.rename ρ) := by
  induction es generalizing finer with
  | nil => rfl
  | cons e es ih =>
    simp only [List.map_cons, nesting]
    by_cases h : e.blockSize % finer.blockSize = 0
    · have h' : (e.rename ρ).blockSize % (finer.rename ρ).blockSize = 0 := h
      rw [if_pos h, if_pos h']
      exact congrArg (e.rename ρ :: ·) ih
    · have h' : ¬(e.rename ρ).blockSize % (finer.rename ρ).blockSize = 0 := h
      rw [if_neg h, if_neg h']
      exact ih

/-! ## The functions in another order -/

section Renumber

variable {n i : ℕ} {π : Equiv.Perm (Fin n)}

/-- The place to which the permutation moves number `i`. -/
def renumber (π : Equiv.Perm (Fin n)) (i : ℕ) : ℕ := if h : i < n then π ⟨i, h⟩ else i

theorem renumber_symm (π : Equiv.Perm (Fin n)) (i : ℕ) :
    renumber π.symm (renumber π i) = i := by
  unfold renumber
  by_cases h : i < n
  · simp [h]
  · simp [h]

theorem renumber_lt : renumber π i < n ↔ i < n := by
  unfold renumber
  by_cases h : i < n
  · simp [h]
  · simp [h]

theorem renumber_injective (π : Equiv.Perm (Fin n)) : Function.Injective (renumber π) :=
  Function.LeftInverse.injective (renumber_symm π)

end Renumber

namespace Chip

/-- The chip with its erase functions in another order. -/
def permute (chip : Chip) (π : Equiv.Perm (Fin chip.eraseFunctions.length)) : Chip :=
  { chip with eraseFunctions := List.ofFn fun i => chip.eraseFunctions.get (π.symm i) }

variable {π : Equiv.Perm (Fin chip.eraseFunctions.length)} {allow allow' : ℕ → Bool} {i n : ℕ}
  {f : EraseFunction} {e x : Eraser}

/-- A function is found at its new place. -/
theorem getElem?_permute (π : Equiv.Perm (Fin chip.eraseFunctions.length)) (i : ℕ) :
    (chip.permute π).eraseFunctions[renumber π i]? = chip.eraseFunctions[i]? := by
  unfold permute renumber
  rw [List.getElem?_ofFn]
  by_cases h : i < chip.eraseFunctions.length
  · simp [h]
  · simp [h]

/-- The chip has no more functions than may take part, and the functions that are allowed are the
same in both orders. -/
structure Reordered (chip : Chip) (π : Equiv.Perm (Fin chip.eraseFunctions.length))
    (allow allow' : ℕ → Bool) : Prop where
  few : chip.eraseFunctions.length ≤ maxEraseFunctions
  allowed : ∀ i < chip.eraseFunctions.length, allow' (renumber π i) = allow i

theorem enables_permute (h : chip.Reordered π allow allow') :
    (chip.permute π).Enables allow' (renumber π i) f ↔ chip.Enables allow i f := by
  constructor
  · rintro ⟨-, hget, husable, hallowed⟩
    rw [getElem?_permute] at hget
    have hlt := (List.getElem?_eq_some_iff.1 hget).1
    exact ⟨hlt.trans_le h.few, hget, husable, (h.allowed i hlt).symm.trans hallowed⟩
  · rintro ⟨-, hget, husable, hallowed⟩
    have hlt := (List.getElem?_eq_some_iff.1 hget).1
    refine ⟨(renumber_lt.2 hlt).trans_le h.few, ?_, husable, (h.allowed i hlt).trans hallowed⟩
    rw [getElem?_permute, hget]

theorem supplies_permute (h : chip.Reordered π allow allow') :
    (chip.permute π).Supplies allow' (e.rename (renumber π)) n ↔ chip.Supplies allow e n :=
  exists_congr fun _ => exists_congr fun _ => and_congr_left fun _ => enables_permute h

/-- Every eraser of the chip in the other order is one with a new number. -/
theorem exists_rename (π : Equiv.Perm (Fin chip.eraseFunctions.length)) (x : Eraser) :
    ∃ e : Eraser, x = e.rename (renumber π) := by
  refine ⟨x.rename (renumber π.symm), ?_⟩
  have hback : renumber π (renumber π.symm x.function) = x.function := renumber_symm π.symm _
  unfold Eraser.rename
  rw [hback]

/-- **Candidate erasers** are the same in both orders. -/
theorem candidateEraser_permute (h : chip.Reordered π allow allow') :
    (chip.permute π).CandidateEraser extent allow' (e.rename (renumber π)) ↔
      chip.CandidateEraser extent allow e := by
  constructor
  · rintro ⟨⟨n, hsupply, hn⟩, hfirst⟩
    refine ⟨⟨n, (supplies_permute h).1 hsupply, hn⟩, fun x m hx hfun hm => ?_⟩
    exact hfirst (x.rename (renumber π)) m ((supplies_permute h).2 hx)
      (congrArg (renumber π) hfun) hm
  · rintro ⟨⟨n, hsupply, hn⟩, hfirst⟩
    refine ⟨⟨n, (supplies_permute h).2 hsupply, hn⟩, fun y m hy hfun hm => ?_⟩
    obtain ⟨x, rfl⟩ := exists_rename π y
    exact hfirst x m ((supplies_permute h).1 hy) (renumber_injective π hfun) hm

/-- No two functions have candidate erasers with one block size. -/
def Distinct (chip : Chip) (extent : ℕ) (allow : ℕ → Bool) : Prop :=
  ∀ e x, chip.CandidateEraser extent allow e → chip.CandidateEraser extent allow x →
    e.function ≠ x.function → e.blockSize ≠ x.blockSize

theorem Distinct.permute (hdistinct : chip.Distinct extent allow)
    (h : chip.Reordered π allow allow') : (chip.permute π).Distinct extent allow' := by
  intro y z hy hz hne
  obtain ⟨e, rfl⟩ := exists_rename π y
  obtain ⟨x, rfl⟩ := exists_rename π z
  exact hdistinct e x ((candidateEraser_permute h).1 hy) ((candidateEraser_permute h).1 hz)
    fun hfun => hne (congrArg (renumber π) hfun)

/-- With distinct block sizes, all candidate erasers are in the sorted list. -/
theorem Distinct.mem_covering_iff (hdistinct : chip.Distinct extent allow) :
    e ∈ chip.covering extent allow ↔ chip.CandidateEraser extent allow e := by
  rw [Chip.mem_covering_iff, and_iff_left_of_imp]
  intro he c hc hsize
  by_contra hlt
  exact hdistinct c e hc he (by omega) hsize

/-- **The sorted list** is the same in both orders. -/
theorem covering_permute (h : chip.Reordered π allow allow')
    (hdistinct : chip.Distinct extent allow) :
    (chip.permute π).covering extent allow' =
      (chip.covering extent allow).map (Eraser.rename (renumber π)) := by
  have hsorted := covering_sorted (chip.permute π) extent allow'
  have hsorted' : ((chip.covering extent allow).map (Eraser.rename (renumber π))).Pairwise
      fun a b => a.blockSize < b.blockSize :=
    List.pairwise_map.2 (covering_sorted chip extent allow)
  have hmem : ∀ y, y ∈ (chip.permute π).covering extent allow' ↔
      y ∈ (chip.covering extent allow).map (Eraser.rename (renumber π)) := by
    intro y
    rw [(hdistinct.permute h).mem_covering_iff, List.mem_map]
    constructor
    · intro hy
      obtain ⟨e, rfl⟩ := exists_rename π y
      exact ⟨e, hdistinct.mem_covering_iff.2 ((candidateEraser_permute h).1 hy), rfl⟩
    · rintro ⟨e, he, rfl⟩
      exact (candidateEraser_permute h).2 (hdistinct.mem_covering_iff.1 he)
  -- two lists in the same strict order are equal if they have the same members
  have hnodup : ∀ {l : List Eraser}, (l.Pairwise fun a b => a.blockSize < b.blockSize) → l.Nodup :=
    fun hl => hl.imp fun hlt heq => by rw [heq] at hlt; omega
  refine List.Perm.eq_of_pairwise ?_ hsorted hsorted'
    ((List.perm_ext_iff_of_nodup (hnodup hsorted) (hnodup hsorted')).2 hmem)
  intro a b _ _ hab hba
  omega

end Chip

/-! ## Plans -/

/-- **Plans do not depend on the order of the erase functions**, if they are few enough, some region
covers the extent, and no two functions have candidate erasers with one block size. With the
functions in another order and a filter that allows the same ones, any two images get the same plan,
apart from the numbers of the functions, or the same error. They get a plan if they fit. -/
theorem prepare_permute {σ τ : Type} {filter : EraserFilter σ} {filter' : EraserFilter τ}
    {I : σ → Prop} {J : τ → Prop} {allow allow' : ℕ → Bool} {s : Session σ} {t : Session τ}
    (π : Equiv.Perm (Fin chip.eraseFunctions.length)) (hπ : chip.Reordered π allow allow')
    (hf : filter.Answers chip I allow) (hf' : filter'.Answers (chip.permute π) J allow')
    (hs : I s.device) (ht : J t.device) (hcandidate : ∃ i, chip.Candidate extent allow i)
    (hdistinct : chip.Distinct extent allow) (old new : Image) :
    (Plan.prepare (chip.permute π) old new extent filter' t).1 =
      (Plan.prepare chip old new extent filter s).1.map (Plan.rename (renumber π)) ∧
    (old.size = chip.totalSize → new.size = chip.totalSize →
      ∃ plan, (Plan.prepare chip old new extent filter s).1 = .ok plan) := by
  have hselected : Ends (selectErasers chip extent filter) s _ := selectErasers_answers hf hs
  have hselected' : Ends (selectErasers (chip.permute π) extent filter') t _ :=
    selectErasers_answers hf' ht
  have hne : chip.covering extent allow ≠ [] := fun hnil =>
    Chip.covering_eq_nil_iff.1 hnil hcandidate
  obtain ⟨finest, coarser, hcovering⟩ := List.exists_cons_of_ne_nil hne
  have hcovering' := Chip.covering_permute hπ hdistinct
  rw [hcovering, List.map_cons] at hcovering'
  -- both selections keep what nests, which is the same
  have hes : (selectErasers chip extent filter s).1 =
      .ok (finest :: (nesting finest coarser).1) := by
    rw [hselected.2, gather_offered, hcovering]
    rfl
  have hes' : (selectErasers (chip.permute π) extent filter' t).1 =
      .ok ((finest :: (nesting finest coarser).1).map (Eraser.rename (renumber π))) := by
    rw [hselected'.2, gather_offered, hcovering', List.map_cons, ← nesting_rename]
    rfl
  constructor
  · rw [prepare_result hes, prepare_result hes']
    have hplan : Plan.ofErasers (chip.permute π) old new
        ((finest :: (nesting finest coarser).1).map (Eraser.rename (renumber π))) =
          (Plan.ofErasers chip old new (finest :: (nesting finest coarser).1)).rename
            (renumber π) := ofErasers_rename
    have hcheck : (chip.permute π).checkImage = chip.checkImage := rfl
    rw [hcheck, Except.map, hplan]
    cases chip.checkImage old with
    | error err => rfl
    | ok _ => cases chip.checkImage new <;> rfl
  · intro hold hnew
    exact ⟨_, prepare_ok hold hnew hes⟩

/-- The two functions of the small chip in reverse order. The unit of the plan is one of blocks of the
first function, which then is the second one. -/
theorem prepare_permute_small :
    (Plan.prepare Chip.small #[0, 0, 0, 0, 1, 1, 1, 1] (Image.blank 8 255) 8 EraserFilter.all
      (⟨(), #[], #[]⟩ : Session Unit)).1 =
        .ok ⟨#[0, 0, 0, 0, 1, 1, 1, 1], Image.blank 8 255, [⟨4, 0, 2, 0, 0⟩]⟩ ∧
    (Plan.prepare (Chip.small.permute Fin.revPerm) #[0, 0, 0, 0, 1, 1, 1, 1]
      (Image.blank 8 255) 8 EraserFilter.all (⟨(), #[], #[]⟩ : Session Unit)).1 =
        .ok ⟨#[0, 0, 0, 0, 1, 1, 1, 1], Image.blank 8 255, [⟨4, 0, 2, 1, 0⟩]⟩ := by
  have hplan : (Plan.prepare Chip.small #[0, 0, 0, 0, 1, 1, 1, 1] (Image.blank 8 255) 8
      EraserFilter.all (⟨(), #[], #[]⟩ : Session Unit)).1 =
        .ok ⟨#[0, 0, 0, 0, 1, 1, 1, 1], Image.blank 8 255, [⟨4, 0, 2, 0, 0⟩]⟩ := rfl
  have hdistinct : Chip.small.Distinct 8 fun _ => true := by
    intro e x he hx hne hsize
    have hlist : Chip.small.candidates 8 (fun _ => true) =
        [⟨0, 0, 4, by decide⟩, ⟨1, 0, 2, by decide⟩] := rfl
    have he := Chip.mem_candidates.2 he
    have hx := Chip.mem_candidates.2 hx
    rw [hlist] at he hx
    simp at he hx
    rcases he with rfl | rfl <;> rcases hx with rfl | rfl <;> simp at hne hsize
  have hsupply : Chip.small.Supplies (fun _ => true) ⟨0, 0, 4, by decide⟩ 8 :=
    ⟨_, _, ⟨by decide, rfl, rfl, rfl⟩, rfl, rfl, rfl⟩
  have hπ : Chip.small.Reordered Fin.revPerm (fun _ => true) fun _ => true :=
    ⟨by decide, fun _ _ => rfl⟩
  have hsame := prepare_permute (s := ⟨(), #[], #[]⟩) (t := ⟨(), #[], #[]⟩) Fin.revPerm hπ
    (answers_all _ fun _ => True) (answers_all _ fun _ => True) trivial trivial
    ⟨0, _, 8, hsupply, rfl, Nat.le_refl 8⟩ hdistinct #[0, 0, 0, 0, 1, 1, 1, 1] (Image.blank 8 255)
  refine ⟨hplan, hsame.1.trans ?_⟩
  rw [hplan]
  rfl

end Reflash
