import Reflash.CommandLine.Run
import Reflash.Proofs.Chip

/-!
# Loading descriptions

What a description says defines its chips directly (`VendorDefinition.described`): sizes count
bytes, or 1024 or 1048576 of them at a time, and each erase function lists all the regions of its
definition. A description is accepted if no function has too many regions and no chip has a defect
(`VendorDefinition.Acceptable`), and is then loaded as it stands; what is refused leaves no trace.
The reader of descriptions may be any function.

* `region_eq_described`, `chips?_eq_ok_iff`: the regions and chips that are made of a definition.
* `serve_settles`: a request to load is served whole or not at all.
* `Faithful.loadAll`: what the database holds after any requests.
* `resolveChip_resolves`: the chip of a name.
* `loads_whole`: all of this for a database that was empty at first.
-/

namespace Reflash

/-! ## What is described -/

/-- The bytes that a size stands for. -/
def Size.described : Size → ℕ
  | ⟨n, .b⟩ => n
  | ⟨n, .kib⟩ => n * 1024
  | ⟨n, .mib⟩ => n * 1048576

theorem Size.bytes_eq_described (s : Size) : s.bytes = s.described := by
  obtain ⟨n, unit⟩ := s
  cases unit with
  | b => exact Nat.mul_one n
  | kib => rfl
  | mib => rfl

/-- The region of a definition: its number of blocks, of as many bytes as its size stands for. -/
def RegionDefinition.described (r : RegionDefinition) : Region := ⟨r.size.described, r.count⟩

theorem RegionDefinition.region_eq_described (r : RegionDefinition) : r.region = r.described := by
  unfold region described
  rw [Size.bytes_eq_described]

/-- The erase function of a definition, with all of its regions. -/
def FunctionDefinition.described (f : FunctionDefinition) : EraseFunction :=
  ⟨f.supported, f.regions.map RegionDefinition.described⟩

/-- The chip of a definition. -/
def ChipDefinition.described (vendor : String) (c : ChipDefinition) : Chip where
  vendor := vendor
  name := c.name
  totalSize := c.totalSize.described
  pageSize := c.pageSize
  erasedValue := c.erasedValue
  granularity := c.granularity
  eraseFunctions := c.functions.map FunctionDefinition.described

/-- The function lists all the regions of the definition, in its order, with their block sizes and
numbers of blocks. -/
def FunctionDefinition.ListedBy (f : FunctionDefinition) (e : EraseFunction) : Prop :=
  List.Forall₂ (fun (r : RegionDefinition) (g : Region) =>
    g.size = r.size.described ∧ g.count = r.count) f.regions e.regions

/-- The functions of the chip, in the order of the definition, list its regions. -/
def ChipDefinition.ListedBy (c : ChipDefinition) (chip : Chip) : Prop :=
  List.Forall₂ FunctionDefinition.ListedBy c.functions chip.eraseFunctions

theorem FunctionDefinition.listedBy_described (f : FunctionDefinition) : f.ListedBy f.described :=
  List.forall₂_map_right_iff.2 (List.forall₂_same.2 fun _ _ => ⟨rfl, rfl⟩)

theorem ChipDefinition.listedBy_described (vendor : String) (c : ChipDefinition) :
    c.ListedBy (c.described vendor) :=
  List.forall₂_map_right_iff.2 (List.forall₂_same.2 fun f _ => f.listedBy_described)

/-- The chips of a vendor, in the order of the description. -/
def VendorDefinition.described (d : VendorDefinition) : List Chip :=
  d.chips.map (ChipDefinition.described d.vendor)

/-- No erase function has more than eight regions, and the chip has no defect. -/
def ChipDefinition.Acceptable (vendor : String) (c : ChipDefinition) : Prop :=
  (∀ f ∈ c.functions, f.regions.length ≤ 8) ∧ (c.described vendor).validate = .ok ()

instance (vendor : String) (c : ChipDefinition) : Decidable (c.Acceptable vendor) :=
  inferInstanceAs (Decidable (_ ∧ _))

/-- All chips of the vendor can be made. -/
def VendorDefinition.Acceptable (d : VendorDefinition) : Prop :=
  ∀ c ∈ d.chips, c.Acceptable d.vendor

instance (d : VendorDefinition) : Decidable d.Acceptable :=
  inferInstanceAs (Decidable (∀ c ∈ d.chips, c.Acceptable d.vendor))

variable {α β ε : Type}

/-- Making things one after the other succeeds exactly if each can be made. -/
theorem mapM_eq_ok_iff {f : α → Except ε β} {P : α → Prop} {g : α → β}
    (hf : ∀ x y, f x = .ok y ↔ P x ∧ y = g x) (xs : List α) (ys : List β) :
    xs.mapM f = .ok ys ↔ (∀ x ∈ xs, P x) ∧ ys = xs.map g := by
  induction xs generalizing ys with
  | nil => simp [pure, Except.pure, eq_comm]
  | cons x xs ih =>
    rw [List.mapM_cons, List.forall_mem_cons, List.map_cons]
    cases hx : f x with
    | error e =>
      have hP : ¬ P x := fun h => by
        rw [(hf x (g x)).2 ⟨h, rfl⟩] at hx
        cases hx
      simp [bind, Except.bind, hP]
    | ok y =>
      obtain ⟨hP, rfl⟩ := (hf x y).1 hx
      cases hxs : xs.mapM f with
      | error e =>
        have hall : ¬ ∀ x ∈ xs, P x := fun h => by
          rw [(ih (xs.map g)).2 ⟨h, rfl⟩] at hxs
          cases hxs
        simp [bind, Except.bind, hall]
      | ok zs =>
        obtain ⟨hall, rfl⟩ := (ih zs).1 hxs
        simp only [bind, Except.bind, pure, Except.pure, Except.ok.injEq]
        exact ⟨fun h => ⟨⟨hP, hall⟩, h.symm⟩, fun h => h.2.symm⟩

/-- No region is dropped from a function that is made. -/
theorem FunctionDefinition.function?_eq_ok_iff {f : FunctionDefinition} {e : EraseFunction} :
    f.function? = .ok e ↔ f.regions.length ≤ 8 ∧ e = f.described := by
  have hregions : f.regions.map RegionDefinition.region =
      f.regions.map RegionDefinition.described :=
    List.map_congr_left fun r _ => r.region_eq_described
  unfold function?
  rw [hregions, show EraseFunction.maxRegions = 8 from rfl]
  split
  · rename_i h
    exact ⟨nofun, fun he => absurd he.1 (Nat.not_le.2 h)⟩
  · rename_i h
    have hfew : f.regions.length ≤ 8 := Nat.not_lt.1 h
    have hlen : (f.regions.map RegionDefinition.described).length ≤ EraseFunction.maxRegions :=
      (List.length_map _).trans_le hfew
    simp only [EraseFunction.ofRegions, List.take_of_length_le hlen, Except.ok.injEq, described]
    exact ⟨fun he => ⟨hfew, he.symm⟩, fun he => he.2.symm⟩

theorem ChipDefinition.chip?_eq_ok_iff {vendor : String} {c : ChipDefinition} {chip : Chip} :
    c.chip? vendor = .ok chip ↔ c.Acceptable vendor ∧ chip = c.described vendor := by
  have hfew (fs : List EraseFunction) : c.functions.mapM FunctionDefinition.function? = .ok fs ↔
      (∀ f ∈ c.functions, f.regions.length ≤ 8) ∧
        fs = c.functions.map FunctionDefinition.described :=
    mapM_eq_ok_iff (fun _ _ => FunctionDefinition.function?_eq_ok_iff) c.functions fs
  cases hf : c.functions.mapM FunctionDefinition.function? with
  | error e =>
    have hmade : c.chip? vendor = .error e := by unfold chip?; rw [hf]; rfl
    have hmany : ¬ ∀ f ∈ c.functions, f.regions.length ≤ 8 := fun h => by
      rw [(hfew _).2 ⟨h, rfl⟩] at hf
      cases hf
    rw [hmade]
    exact ⟨nofun, fun h => absurd h.1.1 hmany⟩
  | ok fs =>
    obtain ⟨hfew, rfl⟩ := (hfew fs).1 hf
    have hmade : c.chip? vendor =
        (c.described vendor).validate.mapError (.defective vendor c.name) >>=
          fun _ => .ok (c.described vendor) := by
      unfold chip?; rw [hf, Size.bytes_eq_described]; rfl
    rw [hmade]
    unfold Acceptable
    cases (c.described vendor).validate with
    | error defect => simp [Except.mapError, bind, Except.bind]
    | ok u => simpa [Except.mapError, bind, Except.bind, eq_comm] using fun _ => hfew

/-- **A definition is taken whole or not at all.** -/
theorem VendorDefinition.chips?_eq_ok_iff {d : VendorDefinition} {chips : List Chip} :
    d.chips? = .ok chips ↔ d.Acceptable ∧ chips = d.described :=
  mapM_eq_ok_iff (fun _ _ => ChipDefinition.chip?_eq_ok_iff) _ _

/-! ## Requests to load -/

/-- A request to load a description: its text, or the path of its file among the files that are
there at the time. -/
inductive LoadRequest where
  | text (contents : String)
  | file (files : Files) (path : String)

namespace LoadRequest

variable {read : String → Option VendorDefinition} {r : LoadRequest} {db : Database}

/-- What comes of a request, and the database after it. -/
def serve (read : String → Option VendorDefinition) (db : Database) :
    LoadRequest → Except LoadError Nat × Database
  | text contents => db.loadWith read contents
  | file files path => db.loadFileWith read files path

example (contents : String) :
    (text contents).serve VendorDefinition.ofText? db = db.load contents := rfl

example (files : Files) (path : String) :
    (file files path).serve VendorDefinition.ofText? db = db.loadFile files path := rfl

/-- The definition that a request leads to, if there is one and it can be read. -/
def definition? (read : String → Option VendorDefinition) : LoadRequest → Option VendorDefinition
  | text contents => read contents
  | file files path => (files.readText path).toOption.bind read

/-- The definition that a request leads to, if it is accepted. -/
def accepted? (read : String → Option VendorDefinition) (r : LoadRequest) :
    Option VendorDefinition :=
  (r.definition? read).filter fun d => d.Acceptable

theorem accepted?_eq_some_iff {d : VendorDefinition} :
    r.accepted? read = some d ↔ r.definition? read = some d ∧ d.Acceptable := by
  unfold accepted?
  rw [Option.filter_eq_some_iff, decide_eq_true_iff]

end LoadRequest

namespace Database

variable {read : String → Option VendorDefinition} {db : Database}

theorem addVendor_of_acceptable {d : VendorDefinition} (h : d.Acceptable) :
    db.addVendor d = (.ok d.chips.length, ⟨db.chips ++ d.described⟩) := by
  unfold addVendor
  rw [VendorDefinition.chips?_eq_ok_iff.2 ⟨h, rfl⟩]
  simp [VendorDefinition.described]

theorem addVendor_of_not_acceptable {d : VendorDefinition} (h : ¬ d.Acceptable) :
    ∃ e, db.addVendor d = (.error e, db) := by
  unfold addVendor
  cases hd : d.chips? with
  | error e => exact ⟨_, rfl⟩
  | ok chips => exact absurd (VendorDefinition.chips?_eq_ok_iff.1 hd).1 h

end Database

namespace LoadRequest

variable {read : String → Option VendorDefinition} {r : LoadRequest} {db : Database}

theorem serve_of_definition {d : VendorDefinition} (h : r.definition? read = some d) :
    r.serve read db = db.addVendor d := by
  cases r with
  | text contents =>
    have hread : read contents = some d := h
    simp only [serve, Database.loadWith, hread]
  | file files path =>
    obtain ⟨contents, hfile, hread⟩ := Option.bind_eq_some_iff.1 h
    cases hc : files.readText path with
    | error e => simp [hc, Except.toOption] at hfile
    | ok contents' =>
      simp only [hc, Except.toOption, Option.some.injEq] at hfile
      simp only [serve, Database.loadFileWith, Database.loadWith, hc, hfile, hread]

theorem serve_of_no_definition (h : r.definition? read = none) :
    ∃ e, r.serve read db = (.error e, db) := by
  cases r with
  | text contents =>
    have hread : read contents = none := h
    exact ⟨.unreadable, by simp only [serve, Database.loadWith, hread]⟩
  | file files path =>
    cases hc : files.readText path with
    | error e => exact ⟨.file e, by simp only [serve, Database.loadFileWith, hc]⟩
    | ok contents =>
      have hread : read contents = none := by
        simpa [definition?, hc, Except.toOption] using h
      exact ⟨.unreadable, by simp only [serve, Database.loadFileWith, Database.loadWith, hc, hread]⟩

/-- **An accepted description** is added behind the chips that are there. -/
theorem serve_of_accepted {d : VendorDefinition} (h : r.accepted? read = some d) :
    r.serve read db = (.ok d.chips.length, ⟨db.chips ++ d.described⟩) := by
  obtain ⟨hd, hok⟩ := accepted?_eq_some_iff.1 h
  rw [serve_of_definition hd, Database.addVendor_of_acceptable hok]

/-- **A description that is not accepted** leaves the database as it is. -/
theorem serve_of_refused (h : r.accepted? read = none) :
    ∃ e, r.serve read db = (.error e, db) := by
  cases hd : r.definition? read with
  | none => exact serve_of_no_definition hd
  | some d =>
    rw [serve_of_definition hd]
    refine Database.addVendor_of_not_acceptable fun hok => ?_
    rw [accepted?_eq_some_iff.2 ⟨hd, hok⟩] at h
    cases h

/-- What has to come of a request: either all chips of an accepted description are added and their
number is given, or nothing is accepted and nothing changes. -/
def Settles (read : String → Option VendorDefinition) (db : Database) (r : LoadRequest) :
    Except LoadError Nat × Database → Prop
  | (.ok n, after) => ∃ d, r.accepted? read = some d ∧ n = d.described.length ∧
      after.chips = db.chips ++ d.described
  | (.error _, after) => r.accepted? read = none ∧ after = db

/-- **A request is served whole or not at all.** -/
theorem serve_settles (read : String → Option VendorDefinition) (db : Database) (r : LoadRequest) :
    r.Settles read db (r.serve read db) := by
  cases hr : r.accepted? read with
  | none =>
    obtain ⟨e, he⟩ := @serve_of_refused read r db hr
    rw [he]
    exact ⟨hr, rfl⟩
  | some d =>
    rw [serve_of_accepted hr]
    exact ⟨d, hr, (List.length_map _).symm, rfl⟩

end LoadRequest

namespace Database

open LoadRequest

variable {read : String → Option VendorDefinition} {r : LoadRequest} {rs : List LoadRequest}
  {ds : List VendorDefinition} {db : Database}

/-- The database after a sequence of requests. -/
def loadAll (read : String → Option VendorDefinition) : List LoadRequest → Database → Database
  | [], db => db
  | r :: rs, db => loadAll read rs (r.serve read db).2

/-- The database holds the chips of these definitions, one behind the other and as described, and
each of them has passed its check. -/
structure Faithful (ds : List VendorDefinition) (db : Database) : Prop where
  chips : db.chips = ds.flatMap VendorDefinition.described
  sound : ∀ c ∈ db.chips, c.validate = .ok ()
  few : ∀ c ∈ db.chips, c.eraseFunctions.length ≤ 8
  /-- The functions of each chip list all regions of its definition. -/
  regions : List.Forall₂ ChipDefinition.ListedBy (ds.flatMap (·.chips)) db.chips

theorem faithful_empty : Faithful [] {} := ⟨rfl, nofun, nofun, .nil⟩

/-- The chips of an acceptable definition can be added. -/
theorem Faithful.add {d : VendorDefinition} (h : db.Faithful ds) (hd : d.Acceptable) :
    Faithful (ds ++ [d]) ⟨db.chips ++ d.described⟩ := by
  have hsound : ∀ c ∈ d.described, c.validate = .ok () := by
    intro c hc
    obtain ⟨definition, hmem, rfl⟩ := List.mem_map.1 hc
    exact (hd definition hmem).2
  have hregions : List.Forall₂ ChipDefinition.ListedBy d.chips d.described :=
    List.forall₂_map_right_iff.2
      (List.forall₂_same.2 fun c _ => c.listedBy_described d.vendor)
  refine ⟨?_, ?_, ?_, ?_⟩
  · simp only [h.chips, List.flatMap_append, List.flatMap_singleton]
  · exact List.forall_mem_append.2 ⟨h.sound, hsound⟩
  · exact List.forall_mem_append.2 ⟨h.few, fun c hc => (Chip.validate_iff.1 (hsound c hc)).few⟩
  · rw [List.flatMap_append, List.flatMap_singleton]
    exact List.rel_append h.regions hregions

/-- One request. -/
theorem Faithful.serve (h : db.Faithful ds) :
    Faithful (ds ++ (r.accepted? read).toList) (r.serve read db).2 := by
  cases hr : r.accepted? read with
  | none =>
    obtain ⟨e, he⟩ := @serve_of_refused read r db hr
    rw [he, Option.toList_none, List.append_nil]
    exact h
  | some d =>
    rw [serve_of_accepted hr]
    exact h.add (accepted?_eq_some_iff.1 hr).2

/-- **Any sequence of requests.** -/
theorem Faithful.loadAll (h : db.Faithful ds) :
    Faithful (ds ++ rs.filterMap (accepted? read)) (loadAll read rs db) := by
  induction rs generalizing ds db with
  | nil => simpa [Database.loadAll] using h
  | cons r rs ih =>
    have hserve : Faithful (ds ++ (r.accepted? read).toList) (r.serve read db).2 := h.serve
    have hnext := ih hserve
    rw [List.append_assoc] at hnext
    have hcons : (r :: rs).filterMap (accepted? read) =
        (r.accepted? read).toList ++ rs.filterMap (accepted? read) := by
      cases hr : r.accepted? read with
      | none => rw [List.filterMap_cons_none hr]; rfl
      | some d => rw [List.filterMap_cons_some hr]; rfl
    rw [hcons]
    exact hnext

end Database

/-! ## Looking up a chip -/

namespace Text

/-- The same character, or the same ASCII letter in the other case. -/
def SameLetter (a b : Char) : Prop :=
  a = b ∨ a.isUpper ∧ b.toNat = a.toNat + 32 ∨ b.isUpper ∧ a.toNat = b.toNat + 32

/-- The same text up to the case of ASCII letters. -/
def SameLetters (s t : String) : Prop := List.Forall₂ SameLetter s.toList t.toList

theorem isUpper_iff {c : Char} : c.isUpper ↔ 65 ≤ c.toNat ∧ c.toNat ≤ 90 := by
  unfold Char.isUpper
  rw [decide_eq_true_iff]
  rfl

theorem toNat_toLower (c : Char) :
    c.toLower.toNat = if c.isUpper then c.toNat + 32 else c.toNat := by
  unfold Char.toLower
  by_cases h : c.val ≥ 'A'.val ∧ c.val ≤ 'Z'.val
  · have hupper : c.isUpper := by simpa [Char.isUpper] using h
    have hle : c.val.toNat ≤ 90 := h.2
    have hgap : ('a'.val - 'A'.val).toNat = 32 := by decide
    rw [dif_pos h, if_pos hupper]
    change (c.val + ('a'.val - 'A'.val)).toNat = c.val.toNat + 32
    rw [UInt32.toNat_add]
    omega
  · have hupper : ¬ c.isUpper := by simpa [Char.isUpper] using h
    rw [dif_neg h, if_neg hupper]

theorem toLower_eq_iff {a b : Char} : a.toLower = b.toLower ↔ SameLetter a b := by
  unfold SameLetter
  simp only [← Char.toNat_inj, toNat_toLower, isUpper_iff]
  split <;> split <;> omega

theorem equalIgnoringAsciiCase_iff {s t : String} :
    equalIgnoringAsciiCase s t = true ↔ SameLetters s t := by
  unfold equalIgnoringAsciiCase SameLetters
  rw [beq_iff_eq, ← List.forall₂_eq_eq_eq, List.forall₂_map_left_iff, List.forall₂_map_right_iff]
  simp only [toLower_eq_iff]

end Text

namespace Database

open LoadRequest

/-- What a lookup by name has to give: the earliest chip of that name, and if there is none, that
the chip is not known. -/
def Resolves (db : Database) (name : String) :
    Except CommandLine.CommandError Chip → Prop
  | .ok c => Text.SameLetters c.name name ∧ ∃ before after, db.chips = before ++ c :: after ∧
      ∀ b ∈ before, ¬ Text.SameLetters b.name name
  | .error e => e = .unknownChip name ∧ ∀ c ∈ db.chips, ¬ Text.SameLetters c.name name

/-- **A lookup among chips without defects** never ends at a chip that is refused. -/
theorem resolveChip_resolves {db : Database} (hsound : ∀ c ∈ db.chips, c.validate = .ok ())
    (name : String) : db.Resolves name (CommandLine.resolveChip db name) := by
  unfold CommandLine.resolveChip
  cases hfind : db.findExact? name with
  | none =>
    refine ⟨rfl, fun c hc hsame => ?_⟩
    exact List.find?_eq_none.1 hfind c hc (Text.equalIgnoringAsciiCase_iff.2 hsame)
  | some c =>
    obtain ⟨hsame, before, after, hchips, hbefore⟩ := List.find?_eq_some_iff_append.1 hfind
    have hmem : c ∈ db.chips := by
      rw [hchips]; exact List.mem_append_right before List.mem_cons_self
    simp only [hsound c hmem]
    refine ⟨Text.equalIgnoringAsciiCase_iff.1 hsame, before, after, hchips, fun b hb hb' => ?_⟩
    have hdiffers := hbefore b hb
    rw [Text.equalIgnoringAsciiCase_iff.2 hb'] at hdiffers
    cases hdiffers

/-- **Loading from nothing.** Whatever reads the descriptions and whatever loads were asked for, the
database holds exactly the chips of the accepted descriptions in that order, all of them checked and
none of them cut: each lists all the regions of its definition, with the block sizes and numbers of
blocks that are described. The next load is served whole or not at all, and a name is resolved to
the earliest chip that has it. -/
theorem loads_whole (read : String → Option VendorDefinition) (rs : List LoadRequest) :
    (loadAll read rs {}).Faithful (rs.filterMap (accepted? read)) ∧
      (∀ r : LoadRequest,
        r.Settles read (loadAll read rs {}) (r.serve read (loadAll read rs {}))) ∧
      ∀ name, (loadAll read rs {}).Resolves name
        (CommandLine.resolveChip (loadAll read rs {}) name) := by
  have hfaithful : (loadAll read rs {}).Faithful ([] ++ rs.filterMap (accepted? read)) :=
    faithful_empty.loadAll
  rw [List.nil_append] at hfaithful
  exact ⟨hfaithful, fun r => serve_settles read _ r, resolveChip_resolves hfaithful.sound⟩

end Database

end Reflash
