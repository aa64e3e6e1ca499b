import LibEmbedding.Foundation.Decimals
import LibEmbedding.QuantizationStored

/-!
# What is stored is what is loaded

A stored decision comes back whole, its reason byte for byte and its numbers as they were
printed. An entry that holds a number printed as a subnormal double is refused.
-/

namespace LibEmbedding

open Foundation

/-- A row of `int` and finite doubles. -/
structure QuantizationMeasurement.Typed (row : QuantizationMeasurement) : Prop where
  quantization : intMin ≤ row.quantization ∧ row.quantization ≤ intMax
  docsPerSec : FiniteDouble row.docsPerSec
  latencyMs : FiniteDouble row.latencyMs
  fileMb : FiniteDouble row.fileMb

/-- What `lembed_quantization_choice_t` can hold: four rows, and a C string of 191 bytes. -/
structure QuantizationChoice.Typed (choice : QuantizationChoice) : Prop where
  quantization : intMin ≤ choice.quantization ∧ choice.quantization ≤ intMax
  reason : 0 ∉ choice.reason ∧ choice.reason.length ≤ 191
  rows : choice.measured.length ≤ quantMaxVariants
  measured : ∀ row ∈ choice.measured, row.Typed

/-- A row with its numbers as they are printed. -/
def QuantizationMeasurement.asPrinted (row : QuantizationMeasurement) : QuantizationMeasurement where
  quantization := row.quantization
  docsPerSec := printed row.docsPerSec
  latencyMs := printed row.latencyMs
  fileMb := printed row.fileMb

/-- The numbers of a row are printed as zero or as normal doubles. -/
structure QuantizationMeasurement.PrintsNormal (row : QuantizationMeasurement) : Prop where
  docsPerSec : inRange (printed row.docsPerSec) = true
  latencyMs : inRange (printed row.latencyMs) = true
  fileMb : inRange (printed row.fileMb) = true

namespace QuantizationLoad

-- ---------------------------------------------------------------------------
-- Rows
-- ---------------------------------------------------------------------------

theorem mode_read {q : Int} (hq : intMin ≤ q ∧ q ≤ intMax) :
    (stod (showInt q)).map truncated = some q := by
  have hsize : q.natAbs < 2 ^ 1024 := by
    have hword : q.natAbs ≤ 2 ^ 31 := by
      simp only [intMin, intMax] at hq
      omega
    exact hword.trans_lt (Nat.pow_lt_pow_right (by norm_num) (by norm_num))
  rw [stod_showInt q hsize, Option.map_some, truncated_intCast]

theorem readBack_eq {row : QuantizationMeasurement} (h : row.Typed) :
    readBack row = {
      quantization := some row.quantization
      docsPerSec := checked (printed row.docsPerSec)
      latencyMs := checked (printed row.latencyMs)
      fileMb := checked (printed row.fileMb) } := by
  rw [readBack, mode_read h.quantization, stod_showDouble h.docsPerSec,
    stod_showDouble h.latencyMs, stod_showDouble h.fileMb]

theorem checked_isSome {v : ℚ} : (checked v).isSome = true ↔ inRange v = true := by
  unfold checked
  split
  · rename_i hv
    exact iff_of_true rfl hv
  · rename_i hv
    exact iff_of_false Bool.false_ne_true hv

theorem checked_eq (h : inRange v = true) : checked v = some v := if_pos h

/-- A row of normal numbers is read back as it was printed. -/
theorem full_readBack {row : QuantizationMeasurement} (h : row.Typed) (hnormal : row.PrintsNormal) :
    (readBack row).full = some row.asPrinted := by
  rw [readBack_eq h, checked_eq hnormal.docsPerSec, checked_eq hnormal.latencyMs,
    checked_eq hnormal.fileMb]
  rfl

theorem readable_iff {row : QuantizationMeasurement} (h : row.Typed) :
    Readable row ↔ row.PrintsNormal := by
  constructor
  · intro hread
    unfold Readable at hread
    rw [readBack_eq h] at hread
    obtain ⟨found, hfull⟩ := Option.isSome_iff_exists.mp hread
    simp only [QuantizationRow.full, Option.bind_eq_bind, Option.bind_eq_some_iff] at hfull
    obtain ⟨_, _, _, hrate, _, hlatency, _, hsize, _⟩ := hfull
    exact ⟨checked_isSome.mp (Option.isSome_of_eq_some hrate),
      checked_isSome.mp (Option.isSome_of_eq_some hlatency),
      checked_isSome.mp (Option.isSome_of_eq_some hsize)⟩
  · intro hnormal
    rw [Readable, full_readBack h hnormal]
    rfl

theorem completeRows_normal (measured : List QuantizationMeasurement)
    (htyped : ∀ row ∈ measured, row.Typed) (hnormal : ∀ row ∈ measured, row.PrintsNormal)
    (rows : List QuantizationRow) :
    completeRows (measured.map readBack ++ rows) =
      measured.map QuantizationMeasurement.asPrinted ++ completeRows rows := by
  induction measured with
  | nil => rfl
  | cons row measured ih =>
    rw [List.forall_mem_cons] at htyped hnormal
    rw [List.map_cons, List.cons_append, completeRows_cons (full_readBack htyped.1 hnormal.1),
      ih htyped.2 hnormal.2]
    rfl

-- ---------------------------------------------------------------------------
-- Choices
-- ---------------------------------------------------------------------------

/-- What the loader makes of a choice. -/
def loadedFrom (choice : QuantizationChoice) : QuantizationChoice where
  quantization := choice.quantization
  variantModel := choice.quantization
  fromCache := true
  reason := choice.reason
  measured := choice.measured.map QuantizationMeasurement.asPrinted

theorem reason_kept {reason : Bytes} (h : 0 ∉ reason ∧ reason.length ≤ 191) :
    (cstr reason).take 191 = reason := by
  have hcstr : cstr reason = reason :=
    List.takeWhile_eq_self_iff.mpr fun c hc => decide_eq_true fun hzero => h.1 (hzero ▸ hc)
  rw [hcstr, List.take_of_length_le h.2]

/-- A choice of normal numbers comes back whole. -/
theorem load_normal {id : CacheIdentity} (hid : id.Legible) {choice : QuantizationChoice}
    (h : choice.Typed) (hmode : 0 ≤ choice.quantization) (hne : choice.measured ≠ [])
    (hnormal : ∀ row ∈ choice.measured, row.PrintsNormal) :
    quantAutoLoad (quantAutoDocument id choice) id = some (loadedFrom choice) := by
  have hmatches : CacheIdentity.matches (quantAutoDocument id choice) id = true :=
    (CacheIdentity.matches_entry hid (choiceLines_noNewline choice)).trans (decide_eq_true rfl)
  have hcomplete : completeRows (readRows (choice.measured.map readBack)) =
      choice.measured.map QuantizationMeasurement.asPrinted := by
    rw [readRows, completeRows_normal choice.measured h.measured hnormal, completeRows_empty,
      List.append_nil]
  rw [quantAutoLoad, if_pos hmatches,
    foldl_document hid choice h.quantization.1 h.quantization.2 h.rows, finish]
  dsimp only
  rw [hcomplete, reason_kept h.reason, if_neg, loadedFrom]
  rintro (hneg | hnil | hcount)
  · exact absurd hneg (not_lt.mpr hmode)
  · exact hne (List.map_eq_nil_iff.mp hnil)
  · exact hcount (by rw [List.length_map])

/-- The loader refuses an entry with any other number. -/
theorem load_refused {id : CacheIdentity} (hid : id.Legible) {choice : QuantizationChoice}
    (h : choice.Typed) (hmode : 0 ≤ choice.quantization)
    (hnormal : ¬∀ row ∈ choice.measured, row.PrintsNormal) :
    quantAutoLoad (quantAutoDocument id choice) id = none := by
  have hload := load_document id hid choice hmode h.quantization.2 h.rows
  rw [if_neg] at hload
  · exact Option.map_eq_none_iff.mp hload
  · rintro ⟨-, -, hread⟩
    exact hnormal fun row hrow => (readable_iff (h.measured row hrow)).mp (hread row hrow)

end QuantizationLoad

-- ---------------------------------------------------------------------------
-- Round trips
-- ---------------------------------------------------------------------------

/-- The entry that `quant_auto_save` leaves under the path of the identity, loaded again. -/
def savedAndLoaded (machine : Machine) (dir : Bytes) (files : AutotuneFiles) (id : CacheIdentity)
    (choice : QuantizationChoice) : Option QuantizationChoice :=
  let path := quantAutoPath machine dir id
  ((files.write path (quantAutoDocument id choice) .stored).read path).bind (quantAutoLoad · id)

/-- The mode, the reason and the rows that were stored are loaded, the numbers as printed. -/
def RoundTrips (machine : Machine) (dir : Bytes) (files : AutotuneFiles) (id : CacheIdentity)
    (choice : QuantizationChoice) : Prop :=
  ∃ loaded, savedAndLoaded machine dir files id choice = some loaded ∧
    loaded.quantization = choice.quantization ∧ loaded.reason = choice.reason ∧
    loaded.measured = choice.measured.map QuantizationMeasurement.asPrinted

theorem savedAndLoaded_eq (machine : Machine) (dir : Bytes) (files : AutotuneFiles)
    (id : CacheIdentity) (choice : QuantizationChoice) :
    savedAndLoaded machine dir files id choice = quantAutoLoad (quantAutoDocument id choice) id := by
  rw [savedAndLoaded, AutotuneFiles.read_write_self]
  rfl

/-- Whatever bytes the reason holds, a choice of one row or more comes back exactly when each of
its numbers is printed as zero or as a normal double. -/
theorem roundTrips_iff {id : CacheIdentity} (hid : id.Legible) {choice : QuantizationChoice}
    (h : choice.Typed) (hmode : 0 ≤ choice.quantization) (hne : choice.measured ≠ [])
    (machine : Machine) (dir : Bytes) (files : AutotuneFiles) :
    RoundTrips machine dir files id choice ↔ ∀ row ∈ choice.measured, row.PrintsNormal := by
  unfold RoundTrips
  rw [savedAndLoaded_eq]
  constructor
  · rintro ⟨loaded, hload, -⟩
    by_contra hnormal
    rw [QuantizationLoad.load_refused hid h hmode hnormal] at hload
    cases hload
  · intro hnormal
    exact ⟨_, QuantizationLoad.load_normal hid h hmode hne hnormal, rfl, rfl, rfl⟩

def plainIdentity : CacheIdentity := quantAutoIdentity (ascii "org/model")

/-- A reason that reads like a field. -/
def quotingReason : Bytes := ascii "\"quantization\": 7, \\\"\\"

/-- A choice of one row. -/
def quotingChoice (fileMb : ℚ) : QuantizationChoice where
  quantization := 2
  variantModel := 2
  fromCache := false
  reason := quotingReason
  measured := [{ quantization := 0, docsPerSec := 100, latencyMs := 10, fileMb }]

theorem plainIdentity_legible : plainIdentity.Legible where
  model := (by decide : Plain (ascii "org/model"))
  variant := (by decide : Plain (ascii "quantization"))
  corpus := (by decide : Plain [])
  objective := Nat.one_lt_two_pow (by decide)
  mode := Nat.one_lt_two_pow (by decide)

theorem quotingChoice_typed (hsize : FiniteDouble fileMb) : (quotingChoice fileMb).Typed where
  quantization := (by decide : intMin ≤ 2 ∧ (2 : Int) ≤ intMax)
  reason := (by decide +kernel : 0 ∉ quotingReason ∧ quotingReason.length ≤ 191)
  rows := (by decide : 1 ≤ quantMaxVariants)
  measured := by
    intro row hrow
    obtain rfl := List.mem_singleton.mp hrow
    exact ⟨(by decide : intMin ≤ 0 ∧ (0 : Int) ≤ intMax),
      (by decide +kernel : FiniteDouble 100), (by decide +kernel : FiniteDouble 10), hsize⟩

theorem roundTrips_iff_quoting :
    RoundTrips TextHost.siblings.machine [] [] plainIdentity (quotingChoice (845 / 10)) ↔
      ∀ row ∈ (quotingChoice (845 / 10)).measured, row.PrintsNormal :=
  roundTrips_iff plainIdentity_legible
    (quotingChoice_typed (by decide +kernel : FiniteDouble (845 / 10))) (by decide)
      (List.cons_ne_nil _ _) TextHost.siblings.machine [] []

/-- A file size of the smallest double is printed as `4.94066e-324`, which is refused. -/
theorem smallest_not_roundTrips :
    plainIdentity.Legible ∧ (quotingChoice (1 / 2 ^ 1074)).Typed ∧
      ¬RoundTrips TextHost.siblings.machine [] [] plainIdentity (quotingChoice (1 / 2 ^ 1074)) := by
  have htyped := quotingChoice_typed (by decide +kernel : FiniteDouble (1 / 2 ^ 1074))
  have hsubnormal : inRange (printed (1 / 2 ^ 1074)) = false := by decide +kernel
  refine ⟨plainIdentity_legible, htyped, ?_⟩
  rintro ⟨loaded, hload, -⟩
  rw [savedAndLoaded_eq, QuantizationLoad.load_refused plainIdentity_legible htyped (by decide)]
    at hload
  · cases hload
  · intro hnormal
    rw [(hnormal _ List.mem_cons_self).fileMb] at hsubnormal
    cases hsubnormal

end LibEmbedding
